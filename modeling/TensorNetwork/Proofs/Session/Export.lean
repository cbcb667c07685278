import Mathlib.Data.List.Permutation
import TensorNetwork.CommandLine
import TensorNetwork.Proofs.Operation.RoundTrip
import TensorNetwork.Proofs.Session.Allocation

/-! A session's program written to a document. The operations that a session
commits have canonical labels and tensors from zero on, so each is read back from
its text, and a document that lists these texts describes the same program. -/
namespace TensorNetwork

/-- The written operations of a program, as a document lists them. -/
def Program.listing (p : Program) : Datum := .list (p.operations.map fun op => .text op.text)

/-- The entries of a document that lists a program, names its function and gives
no shapes. It may hold other entries. -/
structure Document.Lists (entries : List Entry) (p : Program) (name : String) : Prop where
  program : ∃ listed, Datum.field? "program" entries = some (.mapping listed) ∧
    Datum.field? "operations" listed = some p.listing
  settings : ∃ settings, Document.readSettings (Datum.field? "codegen" entries) = .ok settings ∧
    (Datum.field? "name" settings).getD (.text Codegen.defaultName) = .text name ∧
    Datum.field? "shapes" settings = none

theorem Operation.normalized_nonneg {op : Operation} (normal : op.normalized = .ok op)
    (tensors : ∀ tensor ∈ op.inputs ++ op.outputs, 0 ≤ tensor) : ∀ n ∈ op.numbers, 0 ≤ n := by
  intro n member
  rcases List.mem_append.mp member with tensor | label
  · exact tensors n tensor
  · cases op with
    | contraction c =>
      obtain ⟨d, renamed, same⟩ := Outcome.map_eq_ok.mp normal
      cases same
      exact Contraction.canonical_nonneg renamed n label
    | _ => cases label

theorem Document.readOperation_text {op : Operation} (known : op.Known) (normal : op.normalized = .ok op)
    (tensors : ∀ tensor ∈ op.inputs ++ op.outputs, 0 ≤ tensor) :
    readOperation (.text op.text) = .ok op := by
  have read := Operation.ofText_text_of_nonneg known (Operation.normalized_nonneg normal tensors)
  exact Outcome.bind_eq_ok.mpr ⟨op, read, normal⟩

/-- A document is read as the program that it lists if each operation is read back
from its text. -/
theorem Document.ofDatum_of_lists {entries : List Entry} {p : Program} {name : String}
    (lists : Lists entries p name)
    (reads : (p.operations.map fun op => Datum.text op.text).mapM readOperation = .ok p.operations) :
    ofDatum (.mapping entries) = .ok ⟨.text name, p, none⟩ := by
  obtain ⟨⟨listed, found, operations⟩, settings, read, named, unshaped⟩ := lists
  have program : readProgram (.mapping listed) = .ok p := by
    rw [readProgram, operations]
    exact Outcome.bind_eq_ok.mpr ⟨_, rfl, Outcome.bind_eq_ok.mpr ⟨_, reads, rfl⟩⟩
  rw [ofDatum, found]
  dsimp only
  rw [program, read]
  dsimp only [bind, Except.bind]
  rw [unshaped, named]

namespace Session

/-- Every operation of the program has canonical labels. -/
def Canonical (s : Session) : Prop := ∀ op ∈ s.program.operations, op.normalized = .ok op

theorem FitAll.canonical {s : Session} {planned : List Planned} (fit : s.FitAll planned)
    (canonical : s.Canonical) : (s.commitAll planned).Canonical := by
  induction planned generalizing s with
  | nil => exact canonical
  | cons first rest ih =>
    apply ih fit.2
    intro op member
    rcases List.mem_append.mp member with old | new
    · exact canonical op old
    · rw [List.mem_singleton.mp new]
      exact fit.1.normal

theorem Change.canonical {s next : Session} {tensors : List TensorId} (change : s.Change next tensors)
    (canonical : s.Canonical) : next.Canonical := by
  cases change with
  | idle code => exact canonical
  | registered rank => exact canonical
  | committed planned fit => exact fit.canonical canonical

theorem run_canonical (name : String) {requests : List Request}
    (indirect : ∀ request ∈ requests, request.isDirect = false) :
    ((start name).run requests).Canonical := by
  have fresh : ∀ name, (start name).Canonical := fun _ _ member => nomatch member
  exact (run_induction fresh (fun _ canonical change => change.canonical canonical) indirect
    (start_sound name) (fresh name)).2

theorem Sound.reads_listing {s : Session} (sound : s.Sound) (canonical : s.Canonical) :
    (s.program.operations.map fun op => Datum.text op.text).mapM Document.readOperation =
      .ok s.program.operations := by
  rw [Outcome.mapM_eq_ok, List.forall₂_map_left_iff, List.forall₂_same]
  intro op member
  apply Document.readOperation_text (sound.single.known op member) (canonical op member)
  intro tensor occurs
  exact ((sound.registered tensor).mp (sound.mem_program member occurs)).1

/-- Both ways to a program agree. Whatever is asked of a session, the operations of
its program are read back from their texts, so a document that lists these texts
is read as this program; and if the document names the same function, the command
line writes for it what the session generates. -/
theorem run_agrees_with_document (name : String) (requests : List Request)
    (indirect : ∀ request ∈ requests, request.isDirect = false)
    (nonempty : ((start name).run requests).program.operations ≠ []) :
    let s := (start name).run requests
    (s.program.operations.map fun op => Datum.text op.text).mapM Document.readOperation =
      .ok s.program.operations ∧
    ∃ code after events, s.regenerate = .ok (code, after, events) ∧
      ∀ entries, Document.Lists entries s.program s.name →
        Document.ofDatum (.mapping entries) = .ok ⟨.text s.name, s.program, none⟩ ∧
        ∀ text, Yaml.load text = .ok (.mapping entries) → CommandLine.output [text] = .ok code := by
  intro s
  have sound : s.Sound := run_sound name indirect
  have reads := sound.reads_listing (run_canonical name indirect)
  obtain ⟨⟨code, after, events⟩, generated⟩ := sound.regenerate_ok nonempty
  refine ⟨reads, code, after, events, generated, fun entries lists => ?_⟩
  have described := Document.ofDatum_of_lists lists reads
  refine ⟨described, fun text loaded => ?_⟩
  obtain ⟨source, compiled, done⟩ := Outcome.bind_eq_ok.mp generated
  cases done
  have read : Document.ofText text = .ok ⟨.text s.name, s.program, none⟩ :=
    Outcome.bind_eq_ok.mpr ⟨_, loaded, described⟩
  refine Outcome.bind_eq_ok.mpr ⟨_, read, Outcome.map_eq_ok.mpr ⟨source, compiled, rfl⟩⟩

/-- A contraction whose labels were renamed, in a document with a name. -/
theorem run_agrees_with_document_product :
    let requests : List Request :=
      [.addTensor 1, .addTensor 1, .contract [[0, 1]] (.ofList [(0, [8]), (1, [8])])]
    let s := (start "g").run requests
    ∃ code after events, s.regenerate = .ok (code, after, events) ∧
      CommandLine.output ["\x7b'program': \x7b'operations': ['T2 = einsum(T0[0], T1[0] -> [])']\x7d, " ++
        "'codegen': \x7b'name': 'g'\x7d\x7d"] = .ok code := by
  intro requests s
  obtain ⟨-, code, after, events, generated, agrees⟩ :=
    run_agrees_with_document "g" requests (by decide) (by decide)
  let texts : Datum := .list [.text "T2 = einsum(T0[0], T1[0] -> [])"]
  have program : s.program.listing = texts := by cbv
  have lists : Document.Lists [⟨.text "program", .mapping [⟨.text "operations", texts⟩]⟩,
      ⟨.text "codegen", .mapping [⟨.text "name", .text "g"⟩]⟩] s.program s.name :=
    ⟨⟨_, rfl, congrArg some program.symm⟩, _, rfl, rfl, rfl⟩
  exact ⟨code, after, events, generated, (agrees _ lists).2 _ (by cbv)⟩

end Session
end TensorNetwork
