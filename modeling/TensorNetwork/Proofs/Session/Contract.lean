import TensorNetwork.Proofs.Grouping.Components
import TensorNetwork.Proofs.Session.Effect

/-! Contractions asked of a session, exactly. A request is refused for a group without
tensors, or for a tensor that is unknown or not labelled axis by axis, and for nothing
else: labels that occur once pass every check of a contraction, and renaming them loses
none. Otherwise each merged group becomes one contraction whose labels are the given ones
up to their names. -/
namespace TensorNetwork.Session

section FreeLabels
variable {labels : List Label} {label : Label}

theorem mem_freeLabels : label ∈ freeLabels labels ↔ labels.count label = 1 := by
  simp only [freeLabels, List.mem_filter, decide_eq_true_eq, and_iff_right_iff_imp]
  intro once
  apply List.count_pos_iff.mp
  omega

theorem mem_of_freeLabels (free : label ∈ freeLabels labels) : label ∈ labels :=
  (List.mem_filter.mp free).1

theorem freeLabels_sublist (labels : List Label) : (freeLabels labels).Sublist labels.eraseDups :=
  filter_sublist_eraseDups fun _ chosen => Nat.le_of_eq (of_decide_eq_true chosen)

theorem freeLabels_nodup (labels : List Label) : (freeLabels labels).Nodup :=
  (freeLabels_sublist labels).nodup (nodup_eraseDups labels)

/-- Free labels are numbered in ascending order. -/
theorem freeLabels_ascending (labels : List Label) :
    ((freeLabels labels).map (canonicalLabel labels.eraseDups)).Pairwise (· < ·) := by
  rw [List.pairwise_map]
  exact (canonicalLabel_ascending (nodup_eraseDups labels)).sublist (freeLabels_sublist labels)

/-- A renaming that keeps labels apart keeps what is free. -/
theorem freeLabels_map {f : Label → Label} (apart : ∀ a ∈ labels, ∀ b ∈ labels, f a = f b → a = b) :
    freeLabels (labels.map f) = (freeLabels labels).map f := by
  have counts : ∀ a ∈ labels, (labels.map f).count (f a) = labels.count a := by
    intro a held
    rw [List.count_eq_countP, List.countP_map, List.count_eq_countP]
    apply List.countP_congr
    intro b other
    simpa using ⟨apart b other a held, congrArg f⟩
  rw [freeLabels, freeLabels, List.filter_map]
  refine congrArg (List.map f) (List.filter_congr fun a held => ?_)
  simp [counts a held]

theorem owners_length_le (label : Label) (operands : List Operand) :
    (owners label operands).length ≤ (operands.flatMap Operand.labels).count label := by
  induction operands with
  | nil => simp [owners]
  | cons operand rest ih =>
    rw [owners, List.length_map] at ih
    rw [owners, List.length_map, List.filter_cons, List.flatMap_cons, List.count_append]
    split
    · rename_i carried
      have held : 0 < operand.labels.count label := List.count_pos_iff.mpr (List.contains_iff_mem.mp carried)
      rw [List.length_cons]
      omega
    · omega

end FreeLabels

/-- The contraction of some operands that keeps what is free among their labels. It
passes the checks of a contraction. -/
def joining (operands : List Operand) (output : TensorId) (nonempty : operands ≠ []) : Contraction where
  operands := operands
  kept := freeLabels (operands.flatMap Operand.labels)
  output := output
  operands_nonempty := nonempty
  kept_nodup := freeLabels_nodup _
  kept_owned label free := Nat.le_trans (owners_length_le label operands) (Nat.le_of_eq (mem_freeLabels.mp free))

/-- The labels that subscripts give to a group of tensors. -/
def groupLabels (subscripts : IntMap (List Label)) (group : List TensorId) : List Label :=
  group.flatMap fun tensor => (subscripts.get? tensor).getD []

/-- What is committed for a contraction. -/
def planFor (c : Contraction) : Planned := ⟨.contraction c, [c.kept.length]⟩

section Plans
variable {s : Session} {subscripts : IntMap (List Label)} {group : List TensorId} {tensor output : TensorId}
  {operands : List Operand}

theorem planOperand_iff {operand : Operand} :
    s.planOperand subscripts tensor = .ok operand ↔
      operand.tensor = tensor ∧ subscripts.get? tensor = some operand.labels ∧
        s.ranks.get? tensor = some operand.labels.length := by
  unfold planOperand
  split
  · rename_i missing
    simp [missing]
  · rename_i labels given
    rw [Outcome.bind_eq_ok, given]
    constructor
    · rintro ⟨_, checked, done⟩
      cases done
      exact ⟨rfl, rfl, checkRank_eq_ok.mp checked⟩
    · rintro ⟨rfl, same, ranked⟩
      cases same
      exact ⟨(), checkRank_eq_ok.mpr ranked, rfl⟩

/-- With its operands at hand, a group can be contracted. -/
theorem planGroup_of_operands (found : group.mapM (s.planOperand subscripts) = .ok operands)
    (nonempty : operands ≠ []) (output : TensorId) :
    ∃ c, (joining operands output nonempty).canonical = .ok c ∧
      s.planGroup subscripts group output = .ok (planFor c) := by
  obtain ⟨c, renamed⟩ := Contraction.canonical_total (c := joining operands output nonempty)
    fun label free => mem_of_freeLabels free
  obtain ⟨-, kept, -, -⟩ := Contraction.canonical_eq_ok renamed
  have built : Contraction.ofOperands operands (freeLabels (operands.flatMap Operand.labels)) output =
      .ok (joining operands output nonempty) := (joining operands output nonempty).ofOperands_self
  refine ⟨c, renamed, ?_⟩
  rw [planGroup, found]
  simp only [bind, Except.bind, built, renamed]
  rw [planFor, kept, List.length_map]
  rfl

/-- Why a contraction is refused: it contracts nothing, or it names a tensor without
subscripts, an unknown tensor, or one with another number of axes. -/
inductive Refusal (s : Session) (groups : List (List TensorId)) (subscripts : IntMap (List Label)) :
    Error → Prop where
  | noOperands (empty : [] ∈ groups) : Refusal s groups subscripts .noOperands
  | missingSubscripts {tensor : TensorId} (member : tensor ∈ groups.flatten)
      (missing : subscripts.get? tensor = none) : Refusal s groups subscripts (.missingSubscripts tensor)
  | unregistered {tensor : TensorId} {labels : List Label} (member : tensor ∈ groups.flatten)
      (given : subscripts.get? tensor = some labels) (unknown : s.ranks.get? tensor = none) :
      Refusal s groups subscripts (.unregistered tensor)
  | rankMismatch {tensor : TensorId} {labels : List Label} {rank : Nat} (member : tensor ∈ groups.flatten)
      (given : subscripts.get? tensor = some labels) (known : s.ranks.get? tensor = some rank)
      (apart : labels.length ≠ rank) : Refusal s groups subscripts (.rankMismatch tensor rank labels.length)

theorem Refusal.structural {groups : List (List TensorId)} {e : Error} (refusal : s.Refusal groups subscripts e) :
    e.kind = .structural := by
  cases refusal <;> rfl

/-- A cause found among some groups is one among groups that hold them. -/
theorem Refusal.mono {groups more : List (List TensorId)} {e : Error} (refusal : s.Refusal groups subscripts e)
    (empty : [] ∈ groups → [] ∈ more) (members : ∀ tensor ∈ groups.flatten, tensor ∈ more.flatten) :
    s.Refusal more subscripts e := by
  cases refusal with
  | noOperands none => exact .noOperands (empty none)
  | missingSubscripts member missing => exact .missingSubscripts (members _ member) missing
  | unregistered member given unknown => exact .unregistered (members _ member) given unknown
  | rankMismatch member given known apart => exact .rankMismatch (members _ member) given known apart

theorem planOperand_error {e : Error} (refused : s.planOperand subscripts tensor = .error e) :
    s.Refusal [[tensor]] subscripts e := by
  have member : tensor ∈ [[tensor]].flatten := List.mem_singleton_self tensor
  unfold planOperand at refused
  split at refused
  · rename_i missing
    cases refused
    exact .missingSubscripts member missing
  · rename_i labels given
    rcases Outcome.bind_eq_error.mp refused with checked | ⟨_, -, done⟩
    · rw [checkRank, Session.rank] at checked
      cases known : s.ranks.get? tensor with
      | none =>
        simp only [known, bind, Except.bind] at checked
        cases checked
        exact .unregistered member given known
      | some rank =>
        simp only [known, bind, Except.bind] at checked
        split at checked
        · cases checked
        · rename_i apart
          cases checked
          exact .rankMismatch member given known (Ne.symm apart)
    · cases done

/-- Past its operands, only a group without tensors is refused. -/
theorem planGroup_error {e : Error} (refused : s.planGroup subscripts group output = .error e) :
    s.Refusal [group] subscripts e := by
  cases found : group.mapM (s.planOperand subscripts) with
  | error cause =>
    rw [planGroup, found] at refused
    cases refused
    obtain ⟨tensor, member, failed⟩ := Outcome.mapM_error found
    exact (planOperand_error failed).mono (by simp) (by simpa using member)
  | ok operands =>
    by_cases nonempty : operands = []
    · subst nonempty
      have empty : group = [] := by simpa using (planOperands_tensors found).symm
      subst empty
      cases refused
      exact .noOperands List.mem_cons_self
    · obtain ⟨c, -, planned⟩ := planGroup_of_operands found nonempty output
      rw [planned] at refused
      cases refused

theorem planGroups_error {groups : List (List TensorId)} {e : Error}
    (refused : s.planGroups subscripts groups output = .error e) : s.Refusal groups subscripts e := by
  induction groups generalizing output with
  | nil => cases refused
  | cons group rest ih =>
    rw [planGroups] at refused
    rcases Outcome.bind_eq_error.mp refused with here | ⟨first, -, later⟩
    · refine (planGroup_error here).mono (fun empty => ?_) fun tensor member => ?_
      · exact List.mem_cons.mpr (.inl (List.mem_singleton.mp empty))
      · simp_all
    · rcases Outcome.bind_eq_error.mp later with there | ⟨others, -, done⟩
      · exact (ih there).mono (List.mem_cons_of_mem _) (by simp_all)
      · cases done

/-- The contraction that becomes of a group. Its labels are the given ones, renamed to
their places; it keeps those that occur once. -/
structure Contracts (subscripts : IntMap (List Label)) (group : List TensorId) (c : Contraction) : Prop where
  inputs : c.inputs = group
  canonical : c.canonical = .ok c
  pattern : ∃ rename : Label → Label,
    (∀ a ∈ groupLabels subscripts group, ∀ b ∈ groupLabels subscripts group, rename a = rename b → a = b) ∧
    group.map (fun tensor => (subscripts.get? tensor).map (List.map rename)) = c.subscripts.map some
  kept_ascending : c.kept.Pairwise (· < ·)
  kept : ∀ label, label ∈ c.kept ↔ c.labels.count label = 1

/-- Every tensor of a group has a subscript for each of its axes. -/
def Labelled (s : Session) (subscripts : IntMap (List Label)) (group : List TensorId) : Prop :=
  ∀ tensor ∈ group, ∃ labels, subscripts.get? tensor = some labels ∧ s.ranks.get? tensor = some labels.length

theorem planOperands_subscripts (found : group.mapM (s.planOperand subscripts) = .ok operands) :
    group.map subscripts.get? = operands.map fun operand => some operand.labels := by
  have each : List.Forall₂ (fun tensor operand => subscripts.get? tensor = some (Operand.labels operand))
      group operands :=
    (Outcome.mapM_eq_ok.mp found).imp fun tensor operand planned => (planOperand_iff.mp planned).2.1
  have same := List.forall₂_map_left_iff.mpr (List.forall₂_map_right_iff.mpr each)
  rwa [List.forall₂_eq_eq_eq] at same

theorem planOperands_labels (found : group.mapM (s.planOperand subscripts) = .ok operands) :
    operands.flatMap Operand.labels = groupLabels subscripts group := by
  have same := congrArg (List.flatMap fun given => Option.getD given []) (planOperands_subscripts found)
  rw [List.flatMap_map, List.flatMap_map] at same
  exact same.symm

/-- A group that can be contracted is one whose tensors are labelled, and becomes one
contraction. -/
theorem planGroup_eq_ok {planned : Planned} (plan : s.planGroup subscripts group output = .ok planned) :
    (group ≠ [] ∧ s.Labelled subscripts group) ∧
      ∃ c, planned = planFor c ∧ c.output = output ∧ Contracts subscripts group c := by
  obtain ⟨operands, found, rest⟩ := Outcome.bind_eq_ok.mp plan
  have tensors := planOperands_tensors found
  have nonempty : operands ≠ [] := by
    rintro rfl
    cases rest
  obtain ⟨c, renamed, made⟩ := planGroup_of_operands found nonempty output
  obtain ⟨-, kept, sameOutput, -⟩ := Contraction.canonical_eq_ok renamed
  have subscribed := Contraction.canonical_subscripts renamed
  have labels : (joining operands output nonempty).labels = groupLabels subscripts group :=
    planOperands_labels found
  -- Places keep the labels apart, so what is free stays free.
  have apart := canonicalLabel_eraseDups (groupLabels subscripts group)
  have free : c.kept = freeLabels c.labels := by
    rw [kept, Contraction.canonical_labels renamed, labels, freeLabels_map apart]
    exact congrArg _ (congrArg freeLabels labels)
  rw [made] at plan
  cases plan
  refine ⟨⟨?_, fun tensor member => ?_⟩, c, rfl, sameOutput, ?_, ?_, ⟨_, apart, ?_⟩, ?_, fun label => ?_⟩
  · rintro rfl
    exact nonempty (List.map_eq_nil_iff.mp tensors)
  · obtain ⟨operand, done⟩ := Outcome.ok_of_mapM found member
    obtain ⟨-, given, known⟩ := planOperand_iff.mp done
    exact ⟨operand.labels, given, known⟩
  · rw [Contraction.canonical_inputs renamed]
    exact tensors
  · exact Contraction.canonical_idempotent renamed
  · have given := congrArg
      (List.map (Option.map (List.map (canonicalLabel (groupLabels subscripts group).eraseDups))))
      (planOperands_subscripts found)
    rw [subscribed, labels]
    simpa [Contraction.subscripts, joining, Function.comp_def] using given
  · rw [kept]
    exact freeLabels_ascending (joining operands output nonempty).labels
  · rw [free, mem_freeLabels]

theorem planGroups_eq_ok {groups : List (List TensorId)} {planned : List Planned}
    (plan : s.planGroups subscripts groups output = .ok planned) :
    (∀ group ∈ groups, group ≠ [] ∧ s.Labelled subscripts group) ∧
      ∃ cs : List Contraction, planned = cs.map planFor ∧
        cs.map Contraction.output = consecutive output cs.length ∧
        List.Forall₂ (Contracts subscripts) groups cs := by
  induction groups generalizing output planned with
  | nil =>
    cases plan
    exact ⟨by simp, [], rfl, rfl, .nil⟩
  | cons group rest ih =>
    rw [planGroups, Outcome.bind_eq_ok] at plan
    obtain ⟨first, one, plan⟩ := plan
    obtain ⟨others, more, done⟩ := Outcome.bind_eq_ok.mp plan
    cases done
    obtain ⟨usable, c, rfl, sameOutput, contracts⟩ := planGroup_eq_ok one
    obtain ⟨allUsable, cs, rfl, outputs, each⟩ := ih more
    refine ⟨List.forall_mem_cons.mpr ⟨usable, allUsable⟩, c :: cs, rfl, ?_, .cons contracts each⟩
    rw [List.map_cons, List.length_cons, consecutive, sameOutput, outputs]

end Plans

section Commits
variable {s : Session} {cs : List Contraction}

theorem commit_planFor (s : Session) (c : Contraction) :
    s.commit (planFor c) =
      { s.register c.output c.kept.length with program := s.program.push (.contraction c) } :=
  commit_single rfl rfl

theorem commitAll_keeps {tensor : TensorId} (apart : tensor ∉ cs.map Contraction.output) :
    (s.commitAll (cs.map planFor)).ranks.get? tensor = s.ranks.get? tensor := by
  induction cs generalizing s with
  | nil => rfl
  | cons c rest ih =>
    obtain ⟨here, later⟩ := not_or.mp (mt List.mem_cons.mpr apart)
    rw [List.map_cons, commitAll_cons, ih later, commit_planFor]
    simp only [register, IntMap.get?_insert]
    rw [if_neg (Ne.symm here)]

/-- The rank recorded for an output is the number of labels kept. -/
theorem commitAll_records (nodup : (cs.map Contraction.output).Nodup) {c : Contraction} (member : c ∈ cs) :
    (s.commitAll (cs.map planFor)).ranks.get? c.output = some c.kept.length := by
  induction cs generalizing s with
  | nil => cases member
  | cons first rest ih =>
    obtain ⟨new, others⟩ := List.nodup_cons.mp nodup
    rw [List.map_cons, commitAll_cons]
    rcases List.mem_cons.mp member with rfl | later
    · rw [commitAll_keeps new, commit_planFor]
      simp only [register, IntMap.get?_insert, if_true]
    · exact ih others later

theorem commitAll_count {first : TensorId} (outputs : cs.map Contraction.output = consecutive first cs.length)
    (above : s.count ≤ first) :
    (s.commitAll (cs.map planFor)).count = if cs = [] then s.count else first + cs.length := by
  induction cs generalizing s first with
  | nil => rfl
  | cons c rest ih =>
    obtain ⟨head, tail⟩ := List.cons.inj outputs
    have counted : (s.commit (planFor c)).count = first + 1 := by
      rw [commit_planFor, head]
      simp only [register]
      lia
    rw [List.map_cons, commitAll_cons, ih tail (by lia), counted, if_neg (List.cons_ne_nil c rest), List.length_cons]
    split
    · simp_all
    · lia

end Commits

/-- A tensor that cannot be contracted: it has no subscripts, is unknown, or has another
number of axes. -/
def Unusable (s : Session) (subscripts : IntMap (List Label)) (tensor : TensorId) : Prop :=
  subscripts.get? tensor = none ∨ s.ranks.get? tensor = none ∨
    ∃ labels rank, subscripts.get? tensor = some labels ∧ s.ranks.get? tensor = some rank ∧ labels.length ≠ rank

/-- What becomes of a session that contracts some groups, the contractions at hand. -/
structure Contracted (s : Session) (groups : List (List TensorId)) (subscripts : IntMap (List Label))
    (tensors : List TensorId) (next : Session) (cs : List Contraction) : Prop where
  each : List.Forall₂ (Contracts subscripts) (Grouping.mergeOverlapping groups) cs
  ascending : ∀ c ∈ cs, c.inputs.Pairwise (· < ·)
  /-- Every tensor of the groups is an input of exactly one contraction. -/
  inputs : ∀ tensor ∈ groups.flatten, (cs.flatMap Contraction.inputs).count tensor = 1
  operations : next.program.operations = s.program.operations ++ cs.map .contraction
  outputs : cs.map Contraction.output = tensors
  allocated : tensors = consecutive s.nextTensor cs.length
  ranks : ∀ c ∈ cs, next.ranks.get? c.output = some c.kept.length
  others : ∀ tensor, tensor ∉ tensors → next.ranks.get? tensor = s.ranks.get? tensor
  count : next.count = if cs = [] then s.count else s.nextTensor + cs.length
  name : next.name = s.name
  code : next.code = s.code

section Exactly
variable {s next : Session} {groups : List (List TensorId)} {subscripts : IntMap (List Label)}

theorem mem_nil_mergeOverlapping : [] ∈ Grouping.mergeOverlapping groups ↔ [] ∈ groups := by
  rw [← List.count_pos_iff, Grouping.count_nil_mergeOverlapping, List.count_pos_iff]

theorem mem_flatten_mergeOverlapping {tensor : TensorId} :
    tensor ∈ (Grouping.mergeOverlapping groups).flatten ↔ tensor ∈ groups.flatten := by
  obtain ⟨leaders, parts⟩ := Grouping.mergeOverlapping_parts groups
  exact parts.mem_flatten

theorem nodup_flatten_mergeOverlapping : (Grouping.mergeOverlapping groups).flatten.Nodup := by
  obtain ⟨leaders, parts⟩ := Grouping.mergeOverlapping_parts groups
  refine List.nodup_flatten.mpr ⟨fun group member => ?_, parts.disjoint⟩
  exact (Grouping.ascending_mergeOverlapping member).imp fun below => Int.ne_of_lt below

theorem Refusal.unusable {e : Error} (refusal : s.Refusal groups subscripts e) :
    ∃ group ∈ groups, group = [] ∨ ∃ tensor ∈ group, s.Unusable subscripts tensor := by
  have located : ∀ {tensor}, tensor ∈ groups.flatten → s.Unusable subscripts tensor →
      ∃ group ∈ groups, group = [] ∨ ∃ tensor ∈ group, s.Unusable subscripts tensor := by
    intro tensor member unusable
    obtain ⟨group, listed, held⟩ := List.mem_flatten.mp member
    exact ⟨group, listed, .inr ⟨tensor, held, unusable⟩⟩
  cases refusal with
  | noOperands empty => exact ⟨[], empty, .inl rfl⟩
  | missingSubscripts member missing => exact located member (.inl missing)
  | unregistered member given unknown => exact located member (.inr (.inl unknown))
  | rankMismatch member given known apart => exact located member (.inr (.inr ⟨_, _, given, known, apart⟩))

theorem contract_error {e : Error} (refused : s.contract groups subscripts = .error e) :
    s.Refusal groups subscripts e := by
  rcases Outcome.bind_eq_error.mp refused with planned | ⟨_, -, done⟩
  · exact (planGroups_error planned).mono mem_nil_mergeOverlapping.mp fun _ => mem_flatten_mergeOverlapping.mp
  · cases done

/-- What was contracted was usable. -/
theorem contract_usable {result : List TensorId × Session × List Event}
    (served : s.contract groups subscripts = .ok result) :
    ¬ ∃ group ∈ groups, group = [] ∨ ∃ tensor ∈ group, s.Unusable subscripts tensor := by
  obtain ⟨planned, plan, -⟩ := Outcome.bind_eq_ok.mp served
  obtain ⟨usable, -⟩ := planGroups_eq_ok plan
  rintro ⟨group, member, rfl | ⟨tensor, held, unusable⟩⟩
  · exact (usable [] (mem_nil_mergeOverlapping.mpr member)).1 rfl
  · have listed := mem_flatten_mergeOverlapping.mpr (List.mem_flatten_of_mem member held)
    obtain ⟨merged, found, inside⟩ := List.mem_flatten.mp listed
    obtain ⟨labels, given, known⟩ := (usable merged found).2 tensor inside
    rcases unusable with missing | unknown | ⟨labels', rank, given', known', apart⟩
    · simp [given] at missing
    · simp [known] at unknown
    · simp_all

theorem contract_contracted {tensors : List TensorId} {events : List Event}
    (served : s.contract groups subscripts = .ok (tensors, next, events)) :
    ∃ cs, s.Contracted groups subscripts tensors next cs := by
  obtain ⟨planned, plan, done⟩ := Outcome.bind_eq_ok.mp served
  cases done
  obtain ⟨-, cs, rfl, outputs, each⟩ := planGroups_eq_ok plan
  obtain ⟨ranks, count, committed⟩ := commitAll_frame (cs.map planFor) s
  have listed : (cs.map planFor).flatMap (fun p => p.op.outputs) = cs.map Contraction.output := by
    rw [List.flatMap_map]
    exact List.map_eq_flatMap.symm
  have nodup : (cs.map Contraction.output).Nodup := by
    rw [outputs]
    exact (consecutive_ascending _ _).imp fun below => Int.ne_of_lt below
  have inputs : cs.map Contraction.inputs = Grouping.mergeOverlapping groups := by
    have same := List.forall₂_map_right_iff.mpr (each.imp fun _ _ contracts => contracts.inputs.symm)
    rw [List.forall₂_eq_eq_eq] at same
    exact same.symm
  refine ⟨cs, each, ?_, ?_, ?_, listed.symm, listed.trans outputs, ?_, ?_, ?_, ?_, ?_⟩
  · intro c member
    have listed : c.inputs ∈ Grouping.mergeOverlapping groups := inputs ▸ List.mem_map_of_mem member
    exact Grouping.ascending_mergeOverlapping listed
  · intro tensor member
    rw [List.flatMap_def, inputs]
    exact List.count_eq_one_of_mem nodup_flatten_mergeOverlapping (mem_flatten_mergeOverlapping.mpr member)
  · rw [committed, List.map_map]
    rfl
  · exact fun c member => commitAll_records nodup member
  · intro tensor apart
    rw [listed] at apart
    exact commitAll_keeps apart
  · exact commitAll_count outputs s.le_nextTensor.1
  · rw [committed]
  · rw [committed]

/-- A contraction is refused exactly for a group without tensors or a tensor that cannot
be contracted, and always as structurally wrong: free labels are neither repeated nor
shared nor lost. Otherwise it makes one contraction for each merged group. -/
theorem contract_exactly (s : Session) (groups : List (List TensorId)) (subscripts : IntMap (List Label)) :
    ((∃ e, s.contract groups subscripts = .error e) ↔
      ∃ group ∈ groups, group = [] ∨ ∃ tensor ∈ group, s.Unusable subscripts tensor) ∧
    (∀ e, s.contract groups subscripts = .error e → e.kind = .structural ∧ s.Refusal groups subscripts e) ∧
    (∀ tensors next events, s.contract groups subscripts = .ok (tensors, next, events) →
      ∃ cs, s.Contracted groups subscripts tensors next cs) := by
  refine ⟨⟨?_, fun unusable => ?_⟩, fun e refused => ?_, fun tensors next events => contract_contracted⟩
  · rintro ⟨e, refused⟩
    exact (contract_error refused).unusable
  · cases served : s.contract groups subscripts with
    | error e => exact ⟨e, rfl⟩
    | ok result => exact absurd unusable (contract_usable served)
  · have refusal := contract_error refused
    exact ⟨refusal.structural, refusal⟩

end Exactly
end TensorNetwork.Session
