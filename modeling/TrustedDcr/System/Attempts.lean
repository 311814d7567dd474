import TrustedDcr.System.Simulation

/-!
# Locks and tags in a log

Whether a lock is held is asked of committed entries only, while LOCK entries wait
for commitment; and a tag is looked up before its type is rewritten, and not at
all when the locks are complete. Where the whole log is free of what these checks
miss, a log holds one unresolved lock at most and no tag twice.
-/

namespace TrustedDcr.System
open TrustedDcr.Msg TrustedDcr.Dcr TrustedDcr.Enclave TrustedDcr.Theory

/-! ### One lock at a time -/

/-- An execution or an abort of the event of a LOCK entry. -/
def Resolves (r e : Entry) : Prop :=
  (r.tag.type = .exec ∨ r.tag.type = .abort) ∧ r.event = e.event

instance (r e : Entry) : Decidable (Resolves r e) := inferInstanceAs (Decidable (_ ∧ _))

/-- Between two LOCK entries of different attempts the first one's event is executed or aborted. -/
def LocksInTurn (log : List Entry) : Prop :=
  ∀ (i j : Nat) (e f : Entry), i < j → log[i]? = some e → log[j]? = some f → e.tag.type = .lock →
    f.tag.type = .lock → e.tag.uid ≠ f.tag.uid →
    ∃ (k : Nat) (r : Entry), i < k ∧ k < j ∧ log[k]? = some r ∧ Resolves r e

/-- A leader that appends a LOCK entry has the locks of all other attempts in its log, committed or
not, resolved. -/
def LocksWhenResolved (s : World) (a : Action) : Prop :=
  match a.call with
  | .recv (.commandReq req) => (s.peers a.peer).admitsLock req = true →
      (s.peers a.peer).executesAtOnce req = false →
      ∀ i < (s.peers a.peer).log.length, ∀ e ∈ (s.peers a.peer).log[i]?, e.tag.type = .lock →
        e.tag.uid ≠ req.tag.uid → ∃ r ∈ (s.peers a.peer).log.drop (i + 1), Resolves r e
  | _ => True

instance (s : World) (a : Action) : Decidable (LocksWhenResolved s a) := by
  unfold LocksWhenResolved
  induction a.call using Call.casesOn with
  | recv m => induction m using Message.casesOn <;> infer_instance
  | _ => infer_instance

/-- Fair elections, and no lock before the last one is resolved. -/
def LocksFairly (cfg : Config) (h : Hist) (s : World) (a : Action) : Prop :=
  ElectsFairly cfg h s a ∧ LocksWhenResolved s a

instance (cfg : Config) (h : Hist) (s : World) (a : Action) : Decidable (LocksFairly cfg h s a) :=
  inferInstanceAs (Decidable (_ ∧ _))

private theorem LocksInTurn.nil : LocksInTurn [] := fun _ _ _ _ _ he ↦ nomatch he

private theorem LocksInTurn.of_isPrefix {l l' : List Entry} (hp : l' <+: l) (h : LocksInTurn l) :
    LocksInTurn l' := by
  intro i j e f hij he hf
  have hj := (List.getElem?_eq_some_iff.mp hf).1
  intro hle hlf hne
  obtain ⟨k, d, hik, hkj, hd, hres⟩ := h i j e f hij (getElem?_of_isPrefix hp he)
    (getElem?_of_isPrefix hp hf) hle hlf hne
  rw [getElem?_eq_of_isPrefix hp (by omega)] at hd
  exact ⟨k, d, hik, hkj, hd, hres⟩

/-- A LOCK entry may follow where every lock of another attempt is resolved. -/
theorem LocksInTurn.append {l : List Entry} (h : LocksInTurn l) {f : Entry}
    (hf : f.tag.type = .lock → ∀ i < l.length, ∀ e ∈ l[i]?, e.tag.type = .lock →
      e.tag.uid ≠ f.tag.uid → ∃ r ∈ l.drop (i + 1), Resolves r e) : LocksInTurn (l ++ [f]) := by
  intro i j e f' hij he hf' hle hlf hne
  have hj := (List.getElem?_eq_some_iff.mp hf').1
  have hpre : l <+: l ++ [f] := List.prefix_append _ _
  rw [List.length_append, List.length_singleton] at hj
  rw [getElem?_eq_of_isPrefix hpre (by omega)] at he
  rcases getElem?_concat_cases hf' with ⟨-, hf'⟩ | ⟨rfl, rfl⟩
  · obtain ⟨k, d, hik, hkj, hd, hres⟩ := h i j e f' hij he hf' hle hlf hne
    exact ⟨k, d, hik, hkj, getElem?_of_isPrefix hpre hd, hres⟩
  · obtain ⟨r, hr, hres⟩ := hf hlf i hij e he hle hne
    obtain ⟨n, hn⟩ := List.mem_iff_getElem?.mp hr
    rw [List.getElem?_drop] at hn
    have hk := (List.getElem?_eq_some_iff.mp hn).1
    exact ⟨i + 1 + n, r, by omega, hk, getElem?_of_isPrefix hpre hn, hres⟩

/-- A cluster never has the locks of two attempts committed and unresolved.
`src/enclave/enclave.cpp:509–567`. -/
theorem locks_in_turn {cfg : Config} {h : Hist} {s : World} (run : Run cfg (LocksFairly cfg) h s)
    {p : Uid} (hp : p ∈ cfg.peerToEventMap) :
    LocksInTurn ((s.peers p).log.take ((s.peers p).commitIndex + 1)) := by
  refine LocksInTurn.of_isPrefix (List.take_prefix _ _) ?_
  refine run.logs (Φ := fun _ _ ↦ LocksInTurn) (fun _ _ _ hfair ↦ hfair.1) (fun _ _ ↦ .nil)
    (fun _ _ _ _ ↦ .of_isPrefix) ?_ (fun _ _ _ _ hl ↦ hl) ?_ (Config.mem_cluster_clusterOf hp)
  · refine LocksInTurn.nil.append (f := getEmptyEntry) ?_
    exact fun hlock ↦ nomatch hlock
  · rintro h s a t - ⟨-, hresolved⟩ next - e ⟨ds, origin, -⟩ hlocks
    refine hlocks.append fun hlock ↦ ?_
    unfold LocksWhenResolved at hresolved
    cases origin with
    | request received addressed leads fresh lock =>
      rw [Call.eq_recv received] at hresolved
      exact hresolved (lock hlock).1 (lock hlock).2
    | immediate | executed | aborted | checkpoint => exact nomatch hlock

/-- An event is locked again once its first attempt has executed. -/
theorem rivals_lock_in_turn : ∃ h s, Run rivals (LocksFairly rivals) h s ∧
    ∃ k r, 1 < k ∧ k < 3 ∧ ((s.peers ⟨0, 11⟩).log.take 4)[k]? = some r ∧
      Resolves r ⟨1, 0, ⟨0, 1⟩, ⟨0, 11⟩, ⟨⟨0, 101⟩, .lock⟩⟩ := by
  let e : Entry := ⟨1, 0, ⟨0, 1⟩, ⟨0, 11⟩, ⟨⟨0, 101⟩, .lock⟩⟩
  let f : Entry := ⟨3, 0, ⟨0, 1⟩, ⟨0, 11⟩, ⟨⟨0, 103⟩, .lock⟩⟩
  obtain ⟨h, s, run, hp, hc, he, hf⟩ := exists_run_of_replay rivals (LocksFairly rivals)
    [.start ⟨0, 11⟩ ⟨0, 1⟩ ⟨0, 101⟩, .deliver ⟨0, 11⟩ 0, .deliver ⟨0, 21⟩ 1, .deliver ⟨0, 11⟩ 2,
      .start ⟨0, 11⟩ ⟨0, 1⟩ ⟨0, 103⟩, .deliver ⟨0, 11⟩ 5]
    (fun _ s ↦ ⟨0, 11⟩ ∈ rivals.peerToEventMap ∧ (s.peers ⟨0, 11⟩).commitIndex = 3 ∧
      ((s.peers ⟨0, 11⟩).log.take 4)[1]? = some e ∧ ((s.peers ⟨0, 11⟩).log.take 4)[3]? = some f)
    (by decide +kernel)
  have hturn := locks_in_turn run hp
  rw [hc] at hturn
  exact ⟨h, s, run, hturn 1 3 e f (by decide) he hf rfl rfl (by decide)⟩

/-- Two attempts lock an event while neither lock is committed, and then both are. -/
theorem not_locks_in_turn : ¬ ∀ (cfg : Config) (h : Hist) (s : World) (p : Uid),
    Run cfg anyStep h s → p ∈ cfg.peerToEventMap →
      LocksInTurn ((s.peers p).log.take ((s.peers p).commitIndex + 1)) := by
  intro claim
  let e : Entry := ⟨1, 1, ⟨0, 1⟩, ⟨0, 11⟩, ⟨⟨0, 101⟩, .lock⟩⟩
  let f : Entry := ⟨2, 1, ⟨0, 1⟩, ⟨0, 11⟩, ⟨⟨0, 102⟩, .lock⟩⟩
  obtain ⟨h, s, run, hp, hc, he, hf⟩ := exists_run_of_replay trio anyStep
    [.tick ⟨0, 11⟩ 1 emptyUid, .tick ⟨0, 12⟩ 1 emptyUid, .tick ⟨0, 11⟩ 10000 emptyUid,
      .deliver ⟨0, 12⟩ 0, .deliver ⟨0, 11⟩ 1, .deliver ⟨0, 12⟩ 2, .deliver ⟨0, 11⟩ 3,
      .start ⟨0, 11⟩ ⟨0, 1⟩ ⟨0, 101⟩, .start ⟨0, 11⟩ ⟨0, 1⟩ ⟨0, 102⟩, .deliver ⟨0, 11⟩ 5,
      .deliver ⟨0, 11⟩ 6, .deliver ⟨0, 12⟩ 7, .deliver ⟨0, 12⟩ 8, .deliver ⟨0, 11⟩ 9,
      .deliver ⟨0, 11⟩ 10]
    (fun _ s ↦ ⟨0, 11⟩ ∈ trio.peerToEventMap ∧ (s.peers ⟨0, 11⟩).commitIndex = 2 ∧
      ((s.peers ⟨0, 11⟩).log.take 3)[1]? = some e ∧ ((s.peers ⟨0, 11⟩).log.take 3)[2]? = some f)
    (by decide +kernel)
  have hturn := claim trio h s _ run hp
  rw [hc] at hturn
  obtain ⟨k, -, hlt, hgt, -⟩ := hturn 1 2 e f (by decide) he hf rfl rfl (by decide)
  omega

/-! ### No tag twice -/

/-- An entry that is appended without a search for its tag finds no such tag in the log. -/
def AppendsOnce (s : World) (a : Action) : Prop :=
  match a.call with
  | .recv (.commandReq req) => req.tag.type ≠ .checkpoint ∧
      ((s.peers a.peer).admitsLock req = true → (s.peers a.peer).executesAtOnce req = true →
        (s.peers a.peer).existInLog ⟨req.tag.uid, .exec⟩ = none)
  | .recv (.commandRsp rsp) =>
      ((s.peers a.peer).completesLocks rsp = true →
        (s.peers a.peer).existInLog ⟨rsp.tag.uid, .exec⟩ = none) ∧
      (rsp.tag.type = .abort →
        (s.peers a.peer).existInLog ⟨a.oracle.junkEntry.tag.uid, .abort⟩ = none)
  | .recv _ => True
  | .setTime _ | .execute _ | .getHistory => a.oracle.uid ≠ emptyUid

instance (s : World) (a : Action) : Decidable (AppendsOnce s a) := by
  unfold AppendsOnce
  induction a.call using Call.casesOn with
  | recv m => induction m using Message.casesOn <;> infer_instance
  | _ => infer_instance

/-- Fair elections, and no tag appended again. -/
def AppendsFairly (cfg : Config) (h : Hist) (s : World) (a : Action) : Prop :=
  ElectsFairly cfg h s a ∧ AppendsOnce s a

instance (cfg : Config) (h : Hist) (s : World) (a : Action) : Decidable (AppendsFairly cfg h s a) :=
  inferInstanceAs (Decidable (_ ∧ _))

/-- `exist_in_log` finds nothing exactly if no entry has the tag. -/
theorem existInLog_eq_none {p : Peer} {tag : CommandTag} :
    p.existInLog tag = none ↔ tag ∉ p.log.map Entry.tag := by
  unfold Peer.existInLog
  rw [Option.map_eq_none_iff, List.find?_eq_none, List.mem_map]
  constructor
  · rintro h ⟨e, he, rfl⟩
    exact h e he ((tagsEqual_iff _ _).mpr rfl)
  · exact fun h e he ht ↦ h ⟨e, he, (tagsEqual_iff _ _).mp ht⟩

/-- No tag stands twice, and checkpoints carry generated identifiers, or none. -/
def TagsOnce (uids : List Uid) (log : List Entry) : Prop :=
  (log.map Entry.tag).Nodup ∧
    ∀ e ∈ log, e.tag.type = .checkpoint → e.tag.uid = emptyUid ∨ e.tag.uid ∈ uids

private theorem TagsOnce.of_isPrefix {uids : List Uid} {l l' : List Entry} (hp : l' <+: l)
    (h : TagsOnce uids l) : TagsOnce uids l' :=
  ⟨h.1.sublist (hp.sublist.map _), fun e he ↦ h.2 e (hp.subset he)⟩

/-- What a step that appends nothing again appends is new. -/
theorem TagsOnce.append {s t : World} {a : Action} (meets : AppendsOnce s a) {e : Entry}
    (he : Appended s a t e) (fresh : t.uids.Nodup) (h : TagsOnce s.uids (s.peers a.peer).log) :
    TagsOnce t.uids ((s.peers a.peer).log ++ [e]) := by
  obtain ⟨ds, origin, hds⟩ := he
  have hmem : ∀ u, u ∈ s.uids ++ ds → u ∈ t.uids := fun u hu ↦ hds.subset hu
  have hdisjoint := List.nodup_append.mp (fresh.sublist hds.sublist)
  have extend (hnew : e.tag ∉ (s.peers a.peer).log.map Entry.tag)
      (hcheck : e.tag.type = .checkpoint → e.tag.uid ∈ t.uids) :
      TagsOnce t.uids ((s.peers a.peer).log ++ [e]) := by
    constructor
    · rw [List.map_append, List.nodup_append]
      refine ⟨h.1, List.nodup_singleton _, fun tag ht tag' ht' ↦ ?_⟩
      rintro rfl
      obtain rfl := List.mem_singleton.mp ht'
      exact hnew ht
    · intro f hf hc
      rcases List.mem_append.mp hf with hf | hf
      · exact (h.2 f hf hc).imp_right fun hu ↦ hmem _ (List.mem_append_left _ hu)
      · obtain rfl := List.mem_singleton.mp hf
        exact Or.inr (hcheck hc)
  unfold AppendsOnce at meets
  cases origin with
  | request received addressed leads hnone =>
    rw [Call.eq_recv received] at meets
    exact extend (existInLog_eq_none.mp hnone) fun hc ↦ absurd hc meets.1
  | immediate received admitted atOnce =>
    rw [Call.eq_recv received] at meets
    exact extend (existInLog_eq_none.mp (meets.2 admitted atOnce)) fun hc ↦ nomatch hc
  | executed received complete =>
    rw [Call.eq_recv received] at meets
    exact extend (existInLog_eq_none.mp (meets.1 complete)) fun hc ↦ nomatch hc
  | aborted received type =>
    rw [Call.eq_recv received] at meets
    exact extend (existInLog_eq_none.mp (meets.2 type)) fun hc ↦ nomatch hc
  | checkpoint received hdrawn =>
    refine extend ?_ fun _ ↦ hmem _ (List.mem_append_right _ hdrawn)
    intro hin
    obtain ⟨f, hf, htag⟩ := List.mem_map.mp hin
    have hold := h.2 f hf (by rw [htag])
    rw [htag] at hold
    rcases hold with hempty | hused
    · cases hc : a.call with
      | recv msg =>
        rw [hc] at received
        exact nomatch received
      | setTime | execute | getHistory =>
        rw [hc] at meets
        exact meets hempty
    · exact hdisjoint.2.2 _ hused _ hdrawn rfl

/-- As long as no identifier was generated twice, no log has two entries of one tag.
`src/enclave/enclave.cpp:489–567,647–664`. -/
theorem tags_nodup {cfg : Config} {h : Hist} {s : World} (run : Run cfg (AppendsFairly cfg) h s)
    (fresh : s.uids.Nodup) {p : Uid} (hp : p ∈ cfg.peerToEventMap) :
    ((s.peers p).log.map Entry.tag).Nodup := by
  refine (run.logs (Φ := fun _ s l ↦ s.uids.Nodup → TagsOnce s.uids l) (fun _ _ _ hf ↦ hf.1) ?_ ?_
    ?_ ?_ ?_ (Config.mem_cluster_clusterOf hp) fresh).1
  · exact fun _ _ _ ↦ ⟨List.nodup_nil, fun _ he ↦ nomatch he⟩
  · exact fun _ _ _ _ hpre htags hfresh ↦ (htags hfresh).of_isPrefix hpre
  · refine fun _ ↦ ⟨List.nodup_singleton _, fun e he _ ↦ Or.inl ?_⟩
    rw [List.mem_singleton.mp he]
    rfl
  · intro h s a t _ _ next l htags hfresh
    obtain ⟨-, v, -, -, -, huids⟩ := World.step_cases next
    rw [huids] at hfresh ⊢
    obtain ⟨hnodup, hcheck⟩ := htags (hfresh.sublist (List.sublist_append_left _ _))
    exact ⟨hnodup, fun e he hc ↦ (hcheck e he hc).imp_right (List.mem_append_left _)⟩
  · intro h s a t _ meets next _ e he htags hfresh
    obtain ⟨-, v, -, -, -, huids⟩ := World.step_cases next
    have hbefore : s.uids.Nodup := by
      rw [huids] at hfresh
      exact hfresh.sublist (List.sublist_append_left _ _)
    exact TagsOnce.append meets.2 he hfresh (htags hbefore)

/-- A peer alone executes its event once for one command. -/
theorem solo_tags_nodup : ∃ h s, Run solo (AppendsFairly solo) h s ∧
    (s.peers ⟨0, 11⟩).log.length = 2 ∧ ((s.peers ⟨0, 11⟩).log.map Entry.tag).Nodup := by
  obtain ⟨h, s, run, hp, fresh, hlen⟩ := exists_run_of_replay solo (AppendsFairly solo)
    [.start ⟨0, 11⟩ ⟨0, 1⟩ ⟨0, 101⟩, .deliver ⟨0, 11⟩ 0]
    (fun _ s ↦ ⟨0, 11⟩ ∈ solo.peerToEventMap ∧ s.uids.Nodup ∧ (s.peers ⟨0, 11⟩).log.length = 2)
    (by decide +kernel)
  exact ⟨h, s, run, hlen, tags_nodup run fresh hp⟩

/-- The same request delivered twice executes twice: its tag was rewritten. -/
theorem not_tags_nodup : ¬ ∀ (cfg : Config) (h : Hist) (s : World) (p : Uid),
    Run cfg anyStep h s → s.uids.Nodup → p ∈ cfg.peerToEventMap → (s.peers p).role = .leader →
      ((s.peers p).log.map Entry.tag).Nodup := by
  intro claim
  obtain ⟨h, s, run, hp, fresh, leads, twice⟩ := exists_run_of_replay solo anyStep
    [.start ⟨0, 11⟩ ⟨0, 1⟩ ⟨0, 101⟩, .deliver ⟨0, 11⟩ 0, .deliver ⟨0, 11⟩ 0]
    (fun _ s ↦ ⟨0, 11⟩ ∈ solo.peerToEventMap ∧ s.uids.Nodup ∧
      (s.peers ⟨0, 11⟩).role = .leader ∧ ¬((s.peers ⟨0, 11⟩).log.map Entry.tag).Nodup)
    (by decide +kernel)
  exact twice (claim solo h s _ run fresh hp leads)

end TrustedDcr.System
