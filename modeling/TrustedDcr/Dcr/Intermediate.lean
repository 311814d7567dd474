import TrustedDcr.Dcr.Refinement

/-!
# The flat form of a workflow

A workflow crosses the enclave boundary as parallel arrays. `create_intermediate`
flattens it and `make_workflow` builds it again, with the inverse relations
recomputed in the order of the flattened sources. A workflow whose records carry
their keys and whose relations start at its own events comes back as it was, but
for the order of the inverse lists.
-/

namespace TrustedDcr.Dcr
open TrustedDcr.Msg

/-- The arrays before anything is pushed. -/
def IntermediateDcrWorkflow.empty : IntermediateDcrWorkflow :=
  ⟨[], [], [], [], [], [], [], [], [], [], [], [], [], []⟩

/-- The loop over `relation[source]` that fills one pair of arrays, sources first.
`src/enclave/dcr.cpp:103–106,107–110,111–114,115–118,119–122`. -/
def Relation.flatten (relation : Relation) (source : Uid) (arrays : List Uid × List Uid) :
    List Uid × List Uid :=
  (relation.getD source []).foldl
    (fun arrays target ↦ (arrays.1 ++ [source], arrays.2 ++ [target])) arrays

namespace DcrWorkflow

/-- What the loop of `create_intermediate` adds for one event. `src/enclave/dcr.cpp:92–123`. -/
def flattenEvent (w : DcrWorkflow) (ret : IntermediateDcrWorkflow) (pair : Uid × DcrEvent) :
    IntermediateDcrWorkflow :=
  let conditions := w.conditionsTo.flatten pair.1 (ret.dcrConditionsOut, ret.dcrConditionsIn)
  let milestones := w.milestonesTo.flatten pair.1 (ret.dcrMilestonesOut, ret.dcrMilestonesIn)
  let excludes := w.excludesTo.flatten pair.1 (ret.dcrExcludesOut, ret.dcrExcludesIn)
  let includes := w.includesTo.flatten pair.1 (ret.dcrIncludesOut, ret.dcrIncludesIn)
  let responses := w.responsesTo.flatten pair.1 (ret.dcrResponsesOut, ret.dcrResponsesIn)
  { eventIds := ret.eventIds ++ [pair.1]
    excluded := if pair.2.excluded then ret.excluded ++ [pair.1] else ret.excluded
    pending := if pair.2.pending then ret.pending ++ [pair.1] else ret.pending
    executed := if pair.2.executed then ret.executed ++ [pair.1] else ret.executed
    dcrConditionsOut := conditions.1
    dcrConditionsIn := conditions.2
    dcrMilestonesOut := milestones.1
    dcrMilestonesIn := milestones.2
    dcrIncludesOut := includes.1
    dcrIncludesIn := includes.2
    dcrExcludesOut := excludes.1
    dcrExcludesIn := excludes.2
    dcrResponsesOut := responses.1
    dcrResponsesIn := responses.2 }

/-- `create_intermediate`. `src/enclave/dcr.cpp:75–198`. -/
def createIntermediate (w : DcrWorkflow) : IntermediateDcrWorkflow :=
  w.eventStore.toList.foldl w.flattenEvent .empty

end DcrWorkflow

/-! ### What the arrays hold -/

private theorem Relation.flatten_eq (r : Relation) (source : Uid) (arrays : List Uid × List Uid) :
    r.flatten source arrays = (arrays.1 ++ (r.getD source []).map fun _ ↦ source,
      arrays.2 ++ r.getD source []) := by
  unfold Relation.flatten
  generalize r.getD source [] = targets
  induction targets generalizing arrays with
  | nil => simp
  | cons t targets ih =>
    rw [List.foldl_cons, ih]
    simp

/-- The pairs of a relation whose sources are listed. -/
def Relation.pairs (r : Relation) (sources : List Uid) : List (Uid × Uid) :=
  sources.flatMap fun source ↦ (r.getD source []).map fun target ↦ (source, target)

private theorem Relation.pairs_concat (r : Relation) (sources : List Uid) (s : Uid) :
    r.pairs (sources ++ [s]) = r.pairs sources ++ (r.getD s []).map fun target ↦ (s, target) := by
  simp [Relation.pairs]

/-- The two arrays of a relation, zipped. -/
theorem Relation.zip_pairs (r : Relation) (sources : List Uid) :
    ((r.pairs sources).map Prod.fst).zip ((r.pairs sources).map Prod.snd) = r.pairs sources :=
  (List.zip_of_prod rfl rfl).symm

/-- The events of the list whose record has the mark. -/
def marked (mark : DcrEvent → Bool) (l : List (Uid × DcrEvent)) : List Uid :=
  (l.filter fun p ↦ mark p.2).map Prod.fst

private theorem marked_concat (mark : DcrEvent → Bool) (l : List (Uid × DcrEvent))
    (p : Uid × DcrEvent) :
    marked mark (l ++ [p]) = if mark p.2 then marked mark l ++ [p.1] else marked mark l := by
  by_cases h : mark p.2
  · simp [marked, h]
  · simp [marked, h]

namespace DcrWorkflow

/-- The arrays of the listed events. -/
def arrays (w : DcrWorkflow) (l : List (Uid × DcrEvent)) : IntermediateDcrWorkflow where
  eventIds := l.map Prod.fst
  excluded := marked DcrEvent.excluded l
  pending := marked DcrEvent.pending l
  executed := marked DcrEvent.executed l
  dcrConditionsOut := (w.conditionsTo.pairs (l.map Prod.fst)).map Prod.fst
  dcrConditionsIn := (w.conditionsTo.pairs (l.map Prod.fst)).map Prod.snd
  dcrMilestonesOut := (w.milestonesTo.pairs (l.map Prod.fst)).map Prod.fst
  dcrMilestonesIn := (w.milestonesTo.pairs (l.map Prod.fst)).map Prod.snd
  dcrIncludesOut := (w.includesTo.pairs (l.map Prod.fst)).map Prod.fst
  dcrIncludesIn := (w.includesTo.pairs (l.map Prod.fst)).map Prod.snd
  dcrExcludesOut := (w.excludesTo.pairs (l.map Prod.fst)).map Prod.fst
  dcrExcludesIn := (w.excludesTo.pairs (l.map Prod.fst)).map Prod.snd
  dcrResponsesOut := (w.responsesTo.pairs (l.map Prod.fst)).map Prod.fst
  dcrResponsesIn := (w.responsesTo.pairs (l.map Prod.fst)).map Prod.snd

private theorem flattenEvent_arrays (w : DcrWorkflow) (l : List (Uid × DcrEvent))
    (p : Uid × DcrEvent) : w.flattenEvent (w.arrays l) p = w.arrays (l ++ [p]) := by
  simp [flattenEvent, arrays, Relation.flatten_eq, Relation.pairs_concat, marked_concat,
    Function.comp_def]

/-- Every array of `create_intermediate` at once. -/
theorem createIntermediate_eq (w : DcrWorkflow) :
    w.createIntermediate = w.arrays w.eventStore.toList := by
  have key (l seen : List (Uid × DcrEvent)) :
      l.foldl w.flattenEvent (w.arrays seen) = w.arrays (seen ++ l) := by
    induction l generalizing seen with
    | nil => rw [List.foldl_nil, List.append_nil]
    | cons p l ih => rw [List.foldl_cons, flattenEvent_arrays, ih, List.append_assoc,
        List.singleton_append]
  exact key w.eventStore.toList []

end DcrWorkflow

/-! ### What `make_workflow` reads from them -/

/-- Pushing pairs, source first. -/
def Relation.pushAll (r : Relation) (pairs : List (Uid × Uid)) : Relation :=
  pairs.foldl (fun r p ↦ Relation.push r p.1 p.2) r

/-- The targets of a source are appended in the order of the pairs. -/
theorem Relation.getD_pushAll (r : Relation) (pairs : List (Uid × Uid)) (e : Uid) :
    (r.pushAll pairs).getD e [] = r.getD e [] ++ (pairs.filter (·.1 = e)).map Prod.snd := by
  unfold Relation.pushAll
  induction pairs generalizing r with
  | nil => simp
  | cons p pairs ih =>
    rw [List.foldl_cons, ih, Relation.push, getD_insert_uid]
    by_cases h : p.1 = e
    · simp [h]
    · simp [h]

/-- The pairs with one source, when every source is listed once. -/
theorem Relation.filter_pairs (r : Relation) {sources : List Uid} (nodup : sources.Nodup)
    (e : Uid) : ((r.pairs sources).filter (·.1 = e)).map Prod.snd =
      if e ∈ sources then r.getD e [] else [] := by
  induction sources with
  | nil => rfl
  | cons s sources ih =>
    obtain ⟨hs, hn⟩ := List.nodup_cons.mp nodup
    have hcons : r.pairs (s :: sources) =
        ((r.getD s []).map fun target ↦ (s, target)) ++ r.pairs sources := rfl
    rw [hcons, List.filter_append, List.map_append, ih hn]
    by_cases h : s = e
    · subst h
      simp [hs, List.filter_map, Function.comp_def]
    · simp [h, Ne.symm h, List.filter_map, Function.comp_def]

namespace DcrWorkflow

/-- Conditions are configured one by one, at both ends. -/
theorem foldl_conditions (l : List (Uid × Uid)) (w : DcrWorkflow) :
    l.foldl (fun w r ↦ { w with
      conditionsTo := Relation.push w.conditionsTo r.1 r.2
      conditionsFrom := Relation.push w.conditionsFrom r.2 r.1 }) w =
    { w with
      conditionsTo := w.conditionsTo.pushAll l
      conditionsFrom := w.conditionsFrom.pushAll (l.map Prod.swap) } := by
  induction l generalizing w with
  | nil => rfl
  | cons p l ih => exact ih _

/-- Configuring milestones pushes them one by one, at both ends. -/
theorem foldl_milestones (l : List (Uid × Uid)) (w : DcrWorkflow) :
    l.foldl (fun w r ↦ { w with
      milestonesTo := Relation.push w.milestonesTo r.1 r.2
      milestonesFrom := Relation.push w.milestonesFrom r.2 r.1 }) w =
    { w with
      milestonesTo := w.milestonesTo.pushAll l
      milestonesFrom := w.milestonesFrom.pushAll (l.map Prod.swap) } := by
  induction l generalizing w with
  | nil => rfl
  | cons p l ih => exact ih _

/-- Configuring exclusions pushes them one by one. -/
theorem foldl_excludes (l : List (Uid × Uid)) (w : DcrWorkflow) :
    l.foldl (fun w r ↦ { w with excludesTo := Relation.push w.excludesTo r.1 r.2 }) w =
      { w with excludesTo := w.excludesTo.pushAll l } := by
  induction l generalizing w with
  | nil => rfl
  | cons p l ih => exact ih _

/-- Configuring inclusions pushes them one by one. -/
theorem foldl_includes (l : List (Uid × Uid)) (w : DcrWorkflow) :
    l.foldl (fun w r ↦ { w with includesTo := Relation.push w.includesTo r.1 r.2 }) w =
      { w with includesTo := w.includesTo.pushAll l } := by
  induction l generalizing w with
  | nil => rfl
  | cons p l ih => exact ih _

/-- Configuring responses pushes them one by one. -/
theorem foldl_responses (l : List (Uid × Uid)) (w : DcrWorkflow) :
    l.foldl (fun w r ↦ { w with responsesTo := Relation.push w.responsesTo r.1 r.2 }) w =
      { w with responsesTo := w.responsesTo.pushAll l } := by
  induction l generalizing w with
  | nil => rfl
  | cons p l ih => exact ih _

/-- The loop over `event_ids`, at one event. -/
theorem foldl_ids (ids : List Uid) (w : DcrWorkflow) (a : Uid) :
    (ids.foldl (fun w id ↦
      { w with eventStore := w.eventStore.insert id { zeroEvent with id := id } }) w).eventStore[a]? =
      if a ∈ ids then some { zeroEvent with id := a } else w.eventStore[a]? := by
  induction ids generalizing w with
  | nil => simp
  | cons x ids ih =>
    rw [List.foldl_cons, ih, Std.ExtTreeMap.getElem?_insert]
    by_cases ha : a ∈ ids
    · simp [ha]
    · by_cases hx : x = a
      · simp [hx]
      · simp [ha, hx, Ne.symm hx]

/-- Stores with the same events and records are equal. -/
theorem eventStore_ext {w v : DcrWorkflow} (mem : ∀ a, a ∈ w.eventStore ↔ a ∈ v.eventStore)
    (event : ∀ a, w.event a = v.event a) : w.eventStore = v.eventStore := by
  apply Std.ExtTreeMap.ext_getElem?
  intro a
  by_cases ha : a ∈ w.eventStore
  · have hv := (mem a).mp ha
    have he := event a
    rw [DcrWorkflow.event, DcrWorkflow.event, Std.ExtTreeMap.getD_eq_getD_getElem?,
      Std.ExtTreeMap.getD_eq_getD_getElem?] at he
    rw [Std.ExtTreeMap.getElem?_eq_some_getElem ha, Std.ExtTreeMap.getElem?_eq_some_getElem hv] at he ⊢
    exact congrArg some he
  · rw [Std.ExtTreeMap.getElem?_eq_none ha,
      Std.ExtTreeMap.getElem?_eq_none fun hv ↦ ha ((mem a).mpr hv)]

end DcrWorkflow

/-- The loops of `make_workflow` that set ids and event states. `src/enclave/dcr.cpp:203–219`. -/
def withEvents (wf : IntermediateDcrWorkflow) : DcrWorkflow :=
  let newWf := wf.eventIds.foldl (fun w id ↦
    { w with eventStore := w.eventStore.insert id { zeroEvent with id := id } }) DcrWorkflow.empty
  let newWf := wf.excluded.foldl
    (fun w id ↦ w.modifyEvent id fun e ↦ { e with excluded := true }) newWf
  let newWf := wf.pending.foldl
    (fun w id ↦ w.modifyEvent id fun e ↦ { e with pending := true }) newWf
  wf.executed.foldl (fun w id ↦ w.modifyEvent id fun e ↦ { e with executed := true }) newWf

private theorem event_withEvents (wf : IntermediateDcrWorkflow) (a : Uid) :
    (withEvents wf).event a =
      { id := if a ∈ wf.eventIds then a else emptyUid
        executed := decide (a ∈ wf.executed)
        excluded := decide (a ∈ wf.excluded)
        pending := decide (a ∈ wf.pending) } := by
  unfold withEvents
  rw [DcrWorkflow.event_foldl_modifyEvent (by simp), DcrWorkflow.event_foldl_modifyEvent (by simp),
    DcrWorkflow.event_foldl_modifyEvent (by simp), DcrWorkflow.event,
    Std.ExtTreeMap.getD_eq_getD_getElem?, DcrWorkflow.foldl_ids]
  by_cases hi : a ∈ wf.eventIds
  · by_cases he : a ∈ wf.excluded <;> by_cases hp : a ∈ wf.pending <;>
      by_cases hx : a ∈ wf.executed <;> simp [hi, he, hp, hx, zeroEvent]
  · by_cases he : a ∈ wf.excluded <;> by_cases hp : a ∈ wf.pending <;>
      by_cases hx : a ∈ wf.executed <;> simp [hi, he, hp, hx, zeroEvent, DcrWorkflow.empty]

private theorem mem_withEvents (wf : IntermediateDcrWorkflow) (a : Uid) :
    a ∈ (withEvents wf).eventStore ↔
      a ∈ wf.executed ∨ a ∈ wf.pending ∨ a ∈ wf.excluded ∨ a ∈ wf.eventIds := by
  unfold withEvents
  rw [DcrWorkflow.mem_foldl_modifyEvent, DcrWorkflow.mem_foldl_modifyEvent,
    DcrWorkflow.mem_foldl_modifyEvent, Std.ExtTreeMap.mem_iff_isSome_getElem?,
    DcrWorkflow.foldl_ids]
  by_cases hi : a ∈ wf.eventIds
  · simp [hi]
  · simp [hi, DcrWorkflow.empty]

/-- The loops over events set no relation. -/
theorem sameGraph_withEvents (wf : IntermediateDcrWorkflow) :
    DcrWorkflow.empty.SameGraph (withEvents wf) := by
  have ids (l : List Uid) (w : DcrWorkflow) : w.SameGraph (l.foldl (fun w id ↦
      { w with eventStore := w.eventStore.insert id { zeroEvent with id := id } }) w) := by
    induction l generalizing w with
    | nil => exact .refl w
    | cons x l ih =>
      have hx : w.SameGraph
          { w with eventStore := w.eventStore.insert x { zeroEvent with id := x } } := rfl
      exact hx.trans (ih _)
  exact (((ids _ _).trans (DcrWorkflow.sameGraph_foldl_modifyEvent _ _ _)).trans
    (DcrWorkflow.sameGraph_foldl_modifyEvent _ _ _)).trans
    (DcrWorkflow.sameGraph_foldl_modifyEvent _ _ _)

/-- The loops of `make_workflow` that set relations, summed up. `src/enclave/dcr.cpp:221–239`. -/
def withRelations (wf : IntermediateDcrWorkflow) (w : DcrWorkflow) : DcrWorkflow :=
  { w with
    conditionsTo := w.conditionsTo.pushAll (wf.dcrConditionsOut.zip wf.dcrConditionsIn)
    conditionsFrom :=
      w.conditionsFrom.pushAll ((wf.dcrConditionsOut.zip wf.dcrConditionsIn).map Prod.swap)
    milestonesTo := w.milestonesTo.pushAll (wf.dcrMilestonesOut.zip wf.dcrMilestonesIn)
    milestonesFrom :=
      w.milestonesFrom.pushAll ((wf.dcrMilestonesOut.zip wf.dcrMilestonesIn).map Prod.swap)
    excludesTo := w.excludesTo.pushAll (wf.dcrExcludesOut.zip wf.dcrExcludesIn)
    includesTo := w.includesTo.pushAll (wf.dcrIncludesOut.zip wf.dcrIncludesIn)
    responsesTo := w.responsesTo.pushAll (wf.dcrResponsesOut.zip wf.dcrResponsesIn) }

private theorem makeWorkflow_eq (wf : IntermediateDcrWorkflow) :
    makeWorkflow wf = withRelations wf (withEvents wf) := by
  simp only [makeWorkflow, withRelations, DcrWorkflow.foldl_conditions,
    DcrWorkflow.foldl_milestones, DcrWorkflow.foldl_excludes, DcrWorkflow.foldl_includes,
    DcrWorkflow.foldl_responses]
  rfl

/-! ### There and back -/

/-- Read from either end, the two relations list a pair equally often. -/
def Mirror (fwd bwd : Relation) : Prop :=
  ∀ s t, (bwd.getD t []).count s = (fwd.getD s []).count t

/-- The empty relation is its own mirror. -/
theorem Mirror.empty : Mirror ∅ ∅ := by
  intro s t
  simp

/-- A pair pushed at both ends keeps the mirror. -/
theorem Mirror.push {fwd bwd : Relation} (h : Mirror fwd bwd) (s t : Uid) :
    Mirror (Relation.push fwd s t) (Relation.push bwd t s) := by
  intro a b
  have hab := h a b
  unfold Relation.push
  rw [getD_insert_uid, getD_insert_uid]
  by_cases hs : s = a
  · by_cases ht : t = b
    · simp [hs, ht, hab]
    · simp [hs, ht, hab]
  · by_cases ht : t = b
    · simp [hs, ht, hab]
    · simp [hs, ht, hab]

private theorem Mirror.pushAll {fwd bwd : Relation} (h : Mirror fwd bwd)
    (pairs : List (Uid × Uid)) :
    Mirror (fwd.pushAll pairs) (bwd.pushAll (pairs.map Prod.swap)) := by
  induction pairs generalizing fwd bwd with
  | nil => exact h
  | cons p pairs ih => exact ih (h.push p.1 p.2)

/-- What mirrors one relation is determined up to order. -/
theorem Mirror.perm {fwd fwd' bwd bwd' : Relation} (h : Mirror fwd bwd) (h' : Mirror fwd' bwd')
    (same : ∀ s, fwd.getD s [] = fwd'.getD s []) (t : Uid) :
    (bwd.getD t []).Perm (bwd'.getD t []) := by
  rw [List.perm_iff_count]
  intro s
  rw [h, h', same]

/-- The relation starts at events of the store only. -/
def Relation.StartsIn (r : Relation) (store : UidMap DcrEvent) : Prop :=
  ∀ e, e ∉ store → r.getD e [] = []

/-- A pair pushed from a stored event keeps the starts in the store. -/
theorem Relation.StartsIn.push {r : Relation} {store : UidMap DcrEvent} (h : r.StartsIn store)
    {s : Uid} (hs : s ∈ store) (t : Uid) : (Relation.push r s t).StartsIn store := by
  intro e he
  have hse : s ≠ e := fun h ↦ he (h ▸ hs)
  rw [Relation.push, getD_insert_uid, if_neg hse, h e he]

namespace DcrWorkflow

/-- What survives the flat form whole: records carry their keys, relations start at events of
the store, and the inverse relations mirror them. -/
structure Flat (w : DcrWorkflow) : Prop where
  own : ∀ k ∈ w.eventStore, (w.event k).id = k
  excludes : w.excludesTo.StartsIn w.eventStore
  includes : w.includesTo.StartsIn w.eventStore
  responses : w.responsesTo.StartsIn w.eventStore
  conditions : w.conditionsTo.StartsIn w.eventStore
  milestones : w.milestonesTo.StartsIn w.eventStore
  conditionsFrom : Mirror w.conditionsTo w.conditionsFrom
  milestonesFrom : Mirror w.milestonesTo w.milestonesFrom

/-- The workflows differ in the order of their inverse lists only. -/
structure SameLists (w v : DcrWorkflow) : Prop where
  eventStore : w.eventStore = v.eventStore
  excludesTo : ∀ e, w.excludesTo.getD e [] = v.excludesTo.getD e []
  includesTo : ∀ e, w.includesTo.getD e [] = v.includesTo.getD e []
  responsesTo : ∀ e, w.responsesTo.getD e [] = v.responsesTo.getD e []
  conditionsTo : ∀ e, w.conditionsTo.getD e [] = v.conditionsTo.getD e []
  milestonesTo : ∀ e, w.milestonesTo.getD e [] = v.milestonesTo.getD e []
  conditionsFrom : ∀ e, (w.conditionsFrom.getD e []).Perm (v.conditionsFrom.getD e [])
  milestonesFrom : ∀ e, (w.milestonesFrom.getD e []).Perm (v.milestonesFrom.getD e [])

/-- A relation rebuilt from its two arrays. -/
theorem getD_rebuilt {w : DcrWorkflow} {r : Relation} (h : r.StartsIn w.eventStore) (e : Uid) :
    (Relation.pushAll ∅ (r.pairs w.eventStore.keys)).getD e [] = r.getD e [] := by
  rw [Relation.getD_pushAll, Relation.filter_pairs r Std.ExtTreeMap.nodup_keys,
    Std.ExtTreeMap.getD_empty, List.nil_append]
  by_cases he : e ∈ w.eventStore
  · rw [if_pos (Std.ExtTreeMap.mem_keys.mpr he)]
  · rw [if_neg fun hk ↦ he (Std.ExtTreeMap.mem_keys.mp hk), h e he]

private theorem mem_marked {mark : DcrEvent → Bool} (unmarked : mark zeroEvent = false)
    {w : DcrWorkflow}
    {a : Uid} : a ∈ marked mark w.eventStore.toList ↔ mark (w.event a) = true := by
  rw [event, Std.ExtTreeMap.getD_eq_getD_getElem?]
  cases ha : w.eventStore[a]? with
  | none => simp [marked, Std.ExtTreeMap.mem_toList_iff_getElem?_eq_some, ha, unmarked]
  | some r => simp [marked, Std.ExtTreeMap.mem_toList_iff_getElem?_eq_some, ha]

/-- A record with a mark is in the store. -/
theorem mem_of_marked (mark : DcrEvent → Bool) (unmarked : mark zeroEvent = false) {w : DcrWorkflow}
    {a : Uid} (h : mark (w.event a) = true) : a ∈ w.eventStore := by
  by_contra ha
  rw [event, Std.ExtTreeMap.getD_eq_fallback ha, unmarked] at h
  exact Bool.noConfusion h

/-- The store rebuilt from the arrays. -/
theorem eventStore_rebuilt {w : DcrWorkflow} (own : ∀ k ∈ w.eventStore, (w.event k).id = k) :
    (withEvents (w.arrays w.eventStore.toList)).eventStore = w.eventStore := by
  have hids (a : Uid) : a ∈ (w.arrays w.eventStore.toList).eventIds ↔ a ∈ w.eventStore := by
    simp only [arrays, Std.ExtTreeMap.map_fst_toList_eq_keys, Std.ExtTreeMap.mem_keys]
  have hx (a : Uid) : a ∈ (w.arrays w.eventStore.toList).executed ↔
      (w.event a).executed = true := mem_marked rfl
  have hp (a : Uid) : a ∈ (w.arrays w.eventStore.toList).pending ↔
      (w.event a).pending = true := mem_marked rfl
  have he (a : Uid) : a ∈ (w.arrays w.eventStore.toList).excluded ↔
      (w.event a).excluded = true := mem_marked rfl
  apply eventStore_ext
  · intro a
    rw [mem_withEvents, hids]
    constructor
    · rintro (h | h | h | h)
      · exact mem_of_marked DcrEvent.executed rfl ((hx a).mp h)
      · exact mem_of_marked DcrEvent.pending rfl ((hp a).mp h)
      · exact mem_of_marked DcrEvent.excluded rfl ((he a).mp h)
      · exact h
    · intro h
      exact Or.inr (Or.inr (Or.inr h))
  · intro a
    rw [event_withEvents]
    simp only [hids, hx, hp, he, Bool.decide_eq_true]
    by_cases ha : a ∈ w.eventStore
    · rw [if_pos ha]
      exact congrArg (fun id ↦ { w.event a with id := id }) (own a ha).symm
    · rw [if_neg ha, event, Std.ExtTreeMap.getD_eq_fallback ha]
      rfl

/-- What is flat is rebuilt, but for the order of its inverse lists. -/
theorem Flat.sameLists {w : DcrWorkflow} (h : w.Flat) :
    (makeWorkflow w.createIntermediate).SameLists w := by
  have hv : withEvents (w.arrays w.eventStore.toList) =
      { empty with eventStore := w.eventStore } := by
    rw [sameGraph_withEvents, eventStore_rebuilt h.own]
  have rebuilt {r : Relation} (hr : r.StartsIn w.eventStore) (e : Uid) :
      (Relation.pushAll ∅ (((r.pairs (w.eventStore.toList.map Prod.fst)).map Prod.fst).zip
        ((r.pairs (w.eventStore.toList.map Prod.fst)).map Prod.snd))).getD e [] = r.getD e [] := by
    rw [Relation.zip_pairs, Std.ExtTreeMap.map_fst_toList_eq_keys, getD_rebuilt hr]
  rw [createIntermediate_eq, makeWorkflow_eq, hv]
  exact
    { eventStore := rfl
      excludesTo := rebuilt h.excludes
      includesTo := rebuilt h.includes
      responsesTo := rebuilt h.responses
      conditionsTo := rebuilt h.conditions
      milestonesTo := rebuilt h.milestones
      conditionsFrom := (Mirror.empty.pushAll _).perm h.conditionsFrom (rebuilt h.conditions)
      milestonesFrom := (Mirror.empty.pushAll _).perm h.milestonesFrom (rebuilt h.milestones) }

/-! ### The order of the inverse lists is not observed -/

namespace SameLists

variable {w v : DcrWorkflow}

/-- The order of the lists does not show in the records. -/
theorem event (h : SameLists w v) (k : Uid) : w.event k = v.event k := by
  unfold DcrWorkflow.event
  rw [h.eventStore]

/-- The same assignment to both. -/
theorem modifyEvent (h : SameLists w v) (k : Uid) (f : DcrEvent → DcrEvent) :
    SameLists (w.modifyEvent k f) (v.modifyEvent k f) :=
  { h with
    eventStore := by
      unfold DcrWorkflow.modifyEvent
      rw [h.eventStore, h.event] }

/-- The same loop of assignments in both. -/
theorem foldl_modifyEvent (h : SameLists w v) (f : DcrEvent → DcrEvent) {l l' : List Uid}
    (hl : l = l') : SameLists (l.foldl (fun w x ↦ w.modifyEvent x f) w)
      (l'.foldl (fun w x ↦ w.modifyEvent x f) v) := by
  subst hl
  induction l generalizing w v with
  | nil => exact h
  | cons x l ih => exact ih (h.modifyEvent x f)

/-- The same execution in both. -/
theorem setEventExecuted (h : SameLists w v) (e : Uid) :
    SameLists (w.setEventExecuted e) (v.setEventExecuted e) := by
  have hm := (h.modifyEvent e fun e ↦ { e with executed := true }).modifyEvent e
    fun e ↦ { e with pending := false }
  have own {r r' : Relation} (same : ∀ i, r.getD i [] = r'.getD i []) :
      r.getD (w.event e).id [] = r'.getD (v.event e).id [] := by rw [h.event, same]
  have hx := hm.foldl_modifyEvent (fun e ↦ { e with excluded := true }) (own hm.excludesTo)
  have hi := hx.foldl_modifyEvent (fun e ↦ { e with excluded := false }) (own hx.includesTo)
  exact hi.foldl_modifyEvent (fun e ↦ { e with pending := true }) (own hi.responsesTo)

/-- The same sequence of executions in both. -/
theorem foldl_setEventExecuted (h : SameLists w v) (s : List Uid) :
    SameLists (s.foldl DcrWorkflow.setEventExecuted w)
      (s.foldl DcrWorkflow.setEventExecuted v) := by
  induction s generalizing w v with
  | nil => exact h
  | cons e s ih => exact ih (h.setEventExecuted e)

/-- The order of the lists does not show in what is enabled. -/
theorem isEventEnabled_eq (h : SameLists w v) (e : Uid) :
    (w.isEventEnabled e).1 = (v.isEventEnabled e).1 := by
  rw [DcrWorkflow.isEventEnabled_eq, DcrWorkflow.isEventEnabled_eq]
  simp only [h.event]
  rw [(h.conditionsFrom _).all_eq, (h.milestonesFrom _).all_eq]

/-- The order of the lists does not show in the lock sets. -/
theorem getLockSet_eq (h : SameLists w v) (e : Uid) : w.getLockSet e = v.getLockSet e := by
  simp only [getLockSet, h.excludesTo, h.includesTo, h.responsesTo, h.conditionsTo, h.milestonesTo]

/-- The order of the lists does not show in the inform sets. -/
theorem getInformSet_eq (h : SameLists w v) (e : Uid) : w.getInformSet e = v.getInformSet e := by
  simp only [getInformSet, h.getLockSet_eq, h.conditionsTo, h.milestonesTo]

end SameLists

end DcrWorkflow

end TrustedDcr.Dcr
