import HavokMud.Mysql.Progress

/-!
# Saves before loads

`db_mysql_save_account` and `db_mysql_save_pc` return when their last `UPDATE` is on `QueryQ` or
their `INSERT` has been executed.  So whatever is queued after that is executed after all their
statements, and the id they return is the id of the row that was written.
-/

namespace HavokMud.Mysql

variable {collate : Text → Text} {s s' : State} {a : Action} {item : Item} {result : Result}
  {n : ℕ} {id : ℤ}

/-! ## Loads -/

/-- When a load was executed, all statements of the saves that had returned before it was queued had
been executed. -/
def Loads (s : State) : Prop :=
  ∀ before entry, before ++ [entry] <+: s.log → entry.1.query.written = none →
    ∀ v ∈ entry.1.saved, (writesIn before v.number).Perm (v.request.statements v.id) ∧
      writesIn s.log v.number = writesIn before v.number ∧ writesOf s.owed v.number = []

namespace Loads

theorem initial (db : Database) : Loads (.initial db) := by
  intro before entry hbegins
  have hnil := List.prefix_nil.mp hbegins
  simp at hnil

theorem of_owed (h : Loads s) (hlog : s'.log = s.log)
    (howed : ∀ v ∈ s.saved, writesOf s.owed v.number = [] → writesOf s'.owed v.number = [])
    (hnumbered : Numbered s) : Loads s' := by
  intro before entry hbegins hload v hv
  rw [hlog] at hbegins ⊢
  obtain ⟨hperm, hsame, hnil⟩ := h before entry hbegins hload v hv
  have hmem : entry ∈ s.log := hbegins.subset (by simp)
  have hsaved := (hnumbered.snapshot entry.1 (Or.inr (List.mem_map_of_mem hmem)) v hv).1
  exact ⟨hperm, hsame, howed v hsaved hnil⟩

/-- Behind a query that is executed no statement of an earlier save is left. -/
theorem owed_eq_nil (hnumbered : Numbered s) (htook : s.worker = .took item)
    (hload : item.query.written = none) {v : Saved} (hv : v ∈ item.saved) :
    writesOf s.owed v.number = [] := by
  have hflight : s.inFlight = item :: s.queryQ := by
    rw [State.inFlight, htook]
    rfl
  have hmem : item ∈ s.inFlight := by
    rw [hflight]
    exact List.mem_cons_self
  have hlt := (hnumbered.snapshot item (Or.inl hmem) v hv).2
  have horder := hnumbered.order
  rw [hflight] at horder
  obtain ⟨hhead, -⟩ := List.pairwise_cons.mp horder
  apply List.filterMap_eq_nil_iff.mpr
  intro item' hitem
  rw [State.owed, htook] at hitem
  rcases List.mem_cons.mp hitem with rfl | hbehind
  · rw [hload, ite_self]
  · split_ifs with hjob
    · by_contra hsome
      have hle := hhead item' hbehind (Option.isSome_iff_ne_none.mpr hsome)
      omega
    · rfl

theorem executed (h : Loads s) (hnumbered : Numbered s) (hsaving : Saving s)
    (htook : s.worker = .took item) (hworker : s'.worker = .ran item result)
    (hlog : s'.log = s.log ++ [(item, result)]) (hqueue : s'.queryQ = s.queryQ) : Loads s' := by
  have howed : s.owed = item :: s.queryQ := by
    rw [State.owed, htook]
    rfl
  have hleft {n : ℕ} (hnil : writesOf s.owed n = []) : writesOf s'.owed n = [] := by
    apply List.filterMap_eq_nil_iff.mpr
    intro item' hitem
    apply List.filterMap_eq_nil_iff.mp hnil
    rw [howed]
    rw [State.owed, hworker, hqueue, Worker.owed] at hitem
    split_ifs at hitem
    · exact List.mem_cons_of_mem _ hitem
    · exact hitem
  have hentry {n : ℕ} (hnil : writesOf s.owed n = []) : writesIn [(item, result)] n = [] := by
    have hnone := List.filterMap_eq_nil_iff.mp hnil item (by rw [howed]; exact List.mem_cons_self)
    apply List.filterMap_eq_nil_iff.mpr
    intro entry hmem
    obtain rfl := List.mem_singleton.mp hmem
    split_ifs with hand
    · rwa [if_pos hand.1] at hnone
    · rfl
  intro before entry hbegins hload v hv
  rw [hlog] at hbegins ⊢
  rcases List.prefix_concat_iff.mp hbegins with heq | hbegins
  · -- the query that is executed now
    obtain ⟨rfl, hlast⟩ := List.append_inj' heq rfl
    obtain rfl := List.singleton_inj.mp hlast
    have hnil := owed_eq_nil hnumbered htook hload hv
    have hmem : item ∈ s.inFlight := by
      rw [State.inFlight, htook]
      exact List.mem_cons_self
    have hsaved := (hnumbered.snapshot item (Or.inl hmem) v hv).1
    have hperm := (hsaving.returned v hsaved).1
    rw [State.queued, hnil, List.append_nil] at hperm
    refine ⟨hperm, ?_, hleft hnil⟩
    rw [writesIn_append, hentry hnil, List.append_nil]
  · obtain ⟨hperm, hsame, hnil⟩ := h before entry hbegins hload v hv
    refine ⟨hperm, ?_, hleft hnil⟩
    rw [writesIn_append, hentry hnil, List.append_nil, hsame]

theorem step (h : Loads s) (hnumbered : Numbered s) (hsaving : Saving s)
    (heffect : Effect collate s a s') : Loads s' := by
  cases heffect with
  | @enqueue job stage hready =>
      apply h.of_owed _ _ hnumbered
      · rfl
      · intro v hv hnil
        have hlt := (hnumbered.earlier v hv).2 job (by rw [hready]; exact List.mem_singleton_self _)
        have hne : job.number ≠ v.number := by omega
        rw [State.owed, ← List.append_assoc, writesOf_append, writesOf_singleton, if_neg hne,
          List.append_nil]
        exact hnil
  | @dequeue item rest hidle hqueue =>
      apply h.of_owed _ _ hnumbered
      · rfl
      · intro v _ hnil
        rw [State.owed, hidle, hqueue] at hnil
        exact hnil
  | query htook hrun =>
      apply h.executed hnumbered hsaving htook
      all_goals rfl
  | @call item result hran =>
      obtain ⟨id, protectFree, resp, hcall⟩ := call_eq s item result
      rw [hcall]
      apply h.of_owed _ _ hnumbered
      · rfl
      · intro v _ hnil
        have hperm : (writesOf (s.queryQ ++ item.chained result) v.number).Perm [] := by
          rw [← hnil]
          exact writesOf_called hran v.number
        exact hperm.eq_nil
  | @unlock item hcalled =>
      apply h.of_owed _ _ hnumbered
      · rfl
      · intro v _ hnil
        rw [State.owed, hcalled] at hnil
        exact hnil
  | _ => exact h

end Loads

/-- The invariant behind the order of saves and loads. -/
structure SavesInv (collate : Text → Text) (s : State) : Prop where
  handshake : Handshake s
  fitting : Fitting collate s
  numbered : Numbered s
  saving : Saving s
  loads : Loads s

theorem Run.savesInv {guard : State → Action → Prop} (hrun : Run collate guard s) :
    SavesInv collate s := by
  apply hrun.invariant
  · exact fun db ↦ ⟨.initial db, .initial db, .initial db, .initial db, .initial db⟩
  · intro s a s' _ _ heffect h
    exact ⟨h.handshake.step heffect, h.fitting.step heffect, h.numbered.step h.handshake heffect,
      h.saving.step h.numbered h.fitting heffect, h.loads.step h.numbered h.saving heffect⟩

/-- Every load is executed behind all statements of the saves that had returned when it was queued,
and the id such a save returned is the id of the row it wrote. -/
theorem saves_before_loads (hrun : Run collate (fun _ _ ↦ True) s)
    {before after : List (Item × Result)}
    (hlog : s.log = before ++ (item, result) :: after) (hload : item.query.isLoad = true)
    {v : Saved}
    (hv : v ∈ item.saved) :
    (writesIn before v.number).Perm (v.request.statements v.id) ∧ writesIn after v.number = [] ∧
      writesOf s.owed v.number = [] ∧
        ∀ entry ∈ before, entry.1.job = v.number → ∀ id, writtenId entry = some id → id = v.id := by
  have hinv := hrun.savesInv
  have hnone : item.query.written = none := by
    cases hquery : item.query <;> rw [hquery] at hload <;> first | rfl | cases hload
  have hbegins : before ++ [(item, result)] <+: s.log := by
    rw [hlog]
    exact ⟨after, by simp⟩
  obtain ⟨hperm, hsame, howed⟩ := hinv.loads before (item, result) hbegins hnone v hv
  have hmem : item ∈ s.log.map Prod.fst := by simp [hlog]
  have hsaved := (hinv.numbered.snapshot item (Or.inr hmem) v hv).1
  refine ⟨hperm, ?_, howed, ?_⟩
  · rw [hlog, writesIn_append] at hsame
    have hrest := List.append_cancel_left (hsame.trans (List.append_nil _).symm)
    exact (List.append_eq_nil_iff.mp ((writesIn_append [(item, result)] after v.number) ▸ hrest)).2
  · intro entry hentry
    apply (hinv.saving.returned v hsaved).2.logged
    rw [hlog]
    exact List.mem_append_left _ hentry

/-- A new pc with one source is saved, and then looked for. -/
theorem saves_before_find : ∃ s before item result v, Run (fun text ↦ text) (fun _ _ ↦ True) s ∧
    s.log = before ++ [(item, result)] ∧ v ∈ item.saved ∧
      (writesIn before v.number).Perm [.pc ⟨0, 7, [104]⟩, .attribs ⟨1, [115], [123, 125]⟩] := by
  let acts : List Action := [.issue 0 (.savePc ⟨0, 7, [104]⟩ [([115], [123, 125])]), .take,
    .enqueue, .dequeue, .query, .call, .unlock, .resume, .dequeue, .query, .call, .unlock, .resume,
    .enqueue, .dequeue, .query, .call, .unlock, .resume, .respond, .issue 1 (.findPc [104]), .take,
    .enqueue, .dequeue, .query, .call, .unlock, .dequeue, .query]
  obtain ⟨s, hs⟩ := Option.isSome_iff_exists.mp (by decide +kernel :
    (replay (fun text ↦ text) (fun _ _ ↦ True) (.initial ⟨[], [], 1, [], 1, []⟩) acts).isSome =
    true)
  have hrun : Run (fun text ↦ text) (fun _ _ ↦ True) s := run_of_replay (.start _) hs
  have hfacts : (replay (fun text ↦ text) (fun _ _ ↦ True)
      (.initial ⟨[], [], 1, [], 1, []⟩) acts).any (fun s ↦ s.log.drop 4 = [(⟨.findPc [104], 1, true,
        [⟨0, .savePc ⟨0, 7, [104]⟩ [([115], [123, 125])], 1⟩]⟩, .pcs [⟨1, 7, [104]⟩])]) = true := by
    decide +kernel
  simp only [hs, Option.any_some, decide_eq_true_eq] at hfacts
  have hlog : s.log = s.log.take 4 ++ [(_, _)] := hfacts ▸ (List.take_append_drop 4 s.log).symm
  have hmem := List.mem_singleton_self (⟨0, .savePc ⟨0, 7, [104]⟩ [([115], [123, 125])], 1⟩ : Saved)
  exact ⟨s, _, _, _, _, hrun, hlog, hmem, (saves_before_loads hrun hlog rfl hmem).1⟩

end HavokMud.Mysql
