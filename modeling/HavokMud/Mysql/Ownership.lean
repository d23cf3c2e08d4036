import HavokMud.Mysql.Completion
import Mathlib.Data.List.Nodup
import Mathlib.Data.List.Count
import Mathlib.Data.List.ReduceOption

/-!
# Arrays of arguments and who frees them

A query owns the array it was queued with until it is completed.  A chain function hands the array
to the query it queues, and `MysqlThread` frees it all the same: the rule it frees by looks at the
chain function of the query it completes.
-/

namespace HavokMud.Mysql.Completion

/-- Something of the array is freed. -/
def Event.Frees (array : ℕ) : Event → Prop
  | .freeBuffer owner _ => owner = array
  | .freeArray owner => owner = array
  | _ => False

theorem Event.frees_freeArray (array : ℕ) : Event.Frees array (.freeArray array) :=
  rfl

theorem Event.frees_freeBuffer (array place : ℕ) : Event.Frees array (.freeBuffer array place) :=
  rfl

/-- A query on the queue has the array. -/
def State.Pending (s : State) (array : ℕ) : Prop :=
  ∃ item ∈ s.queue, item.queryData = some array

/-- No array is freed before the last query that has it was passed to `db_query`, and an array that
no query has any more was freed once, as were its buffers. -/
structure Owned (s : State) : Prop where
  pending : ∀ array, s.Pending array → ∀ event ∈ s.trace, ¬ event.Frees array
  passes : ∀ array before after, s.trace = before ++ .passed array :: after →
    ∀ event ∈ before, ¬ event.Frees array
  freeArray : ∀ array < s.nextArray, ¬ s.Pending array → s.trace.count (.freeArray array) = 1
  freeBuffers : ∀ array < s.nextArray, ¬ s.Pending array → ∀ place, some place ∈ s.arrays array →
    s.trace.count (.freeBuffer array place) = 1

/-- The query that is completed has no chain function, or no array, or its chain function does not
run and all its arguments are NULL. -/
def Settles (s : State) : Action → Prop
  | .queue _ _ _ => True
  | .complete outcome => ∀ item rest, s.queue = item :: rest →
      item.chain = none ∨ item.queryData = none ∨
        ∃ array, item.queryData = some array ∧
          (s.answers outcome = false ∨ item.callback ≠ none) ∧
            ∀ buffer ∈ s.arrays array, buffer = none

/-- The arrays of the queries on the queue. -/
def State.owners (s : State) : List ℕ :=
  s.queue.filterMap Item.queryData

theorem State.mem_owners {s : State} {array : ℕ} : array ∈ s.owners ↔ s.Pending array := by
  unfold State.owners State.Pending
  rw [List.mem_filterMap]

/-- What the loop keeps as long as it completes only queries that settle. -/
structure OwnedInv (s : State) : Prop where
  owned : Owned s
  single : s.owners.Nodup
  numbered : ∀ array, s.Pending array → array < s.nextArray
  counted : ∀ item ∈ s.queue, ∀ array, item.queryData = some array →
    item.queryDataCount = (s.arrays array).length
  untouched : ∀ array, s.nextArray ≤ array → ∀ event ∈ s.trace, ¬ event.Frees array
  places : ∀ array, (s.arrays array).reduceOption.Nodup

theorem OwnedInv.initial (insertid : ℤ) : OwnedInv (.initial insertid) where
  owned :=
    { pending := by
        intro array _ event hevent
        cases hevent
      passes := by
        intro array before after htrace
        simp [State.initial] at htrace
      freeArray := by
        intro array harray
        exact absurd harray (Nat.not_lt_zero array)
      freeBuffers := by
        intro array harray
        exact absurd harray (Nat.not_lt_zero array) }
  single := List.nodup_nil
  numbered := by
    rintro array ⟨item, hitem, -⟩
    cases hitem
  counted := by
    intro item hitem
    cases hitem
  untouched := by
    intro array _ event hevent
    cases hevent
  places := by
    intro array
    exact List.nodup_nil

/-! ## Queueing -/

theorem State.pending_queueQuery {s : State} {callback : Option Callback}
    {chain : Option ChainFunc} {args : Option (List Bool)} {array : ℕ} :
    (s.queueQuery callback chain args).Pending array ↔
      s.Pending array ∨ args.isSome ∧ array = s.nextArray := by
  unfold State.queueQuery State.Pending
  cases args with
  | none => simp
  | some args => simp [or_and_right, exists_or, eq_comm]

theorem State.trace_queueQuery {s : State} {callback : Option Callback}
    {chain : Option ChainFunc} {args : Option (List Bool)} :
    (s.queueQuery callback chain args).trace = s.trace := by
  unfold State.queueQuery
  cases args <;> rfl

theorem State.owners_queueQuery {s : State} {callback : Option Callback}
    {chain : Option ChainFunc} {args : Option (List Bool)} :
    (s.queueQuery callback chain args).owners =
      s.owners ++ if args.isSome then [s.nextArray] else [] := by
  unfold State.queueQuery State.owners
  cases args <;> simp

theorem State.arrays_queueQuery_of_ne {s : State} {callback : Option Callback}
    {chain : Option ChainFunc} {args : Option (List Bool)} {array : ℕ}
    (hne : array ≠ s.nextArray) :
    (s.queueQuery callback chain args).arrays array = s.arrays array := by
  unfold State.queueQuery
  cases args with
  | none => rfl
  | some args => simp [Function.update_of_ne hne]

/-- The places of the arguments that are not NULL. -/
theorem reduceOption_mapIdx_nodup (args : List Bool) (start : ℕ) :
    ((args.mapIdx fun place isNull ↦ if isNull then none
      else some (place + start)).reduceOption).Nodup := by
  have hsub : ((args.mapIdx fun place isNull ↦ if isNull then none
      else some (place + start)).reduceOption).Sublist (List.range' start args.length) := by
    induction args generalizing start with
    | nil => simp [List.reduceOption]
    | cons isNull args ih =>
        have htail := ih (start + 1)
        simp only [List.mapIdx_cons, List.length_cons, List.range'_succ, Nat.zero_add]
        have hshift : (fun place (isNull : Bool) ↦ if isNull then none
            else some (place + 1 + start)) =
            fun place isNull ↦ if isNull then none else some (place + (start + 1)) := by
          funext place isNull
          congr 2
          omega
        rw [hshift]
        cases isNull with
        | true => simpa using htail.cons start
        | false => simpa using htail.cons_cons start
  exact hsub.nodup List.nodup_range'

theorem OwnedInv.queueQuery {s : State} (h : OwnedInv s) (callback : Option Callback)
    (chain : Option ChainFunc) (args : Option (List Bool)) :
    OwnedInv (s.queueQuery callback chain args) := by
  have hnext : s.nextArray ≤ (s.queueQuery callback chain args).nextArray := by
    unfold State.queueQuery
    cases args <;> simp
  have hsplit : ∀ array < (s.queueQuery callback chain args).nextArray,
      ¬ (s.queueQuery callback chain args).Pending array → array < s.nextArray := by
    intro array harray hpending
    rw [State.pending_queueQuery] at hpending
    cases args with
    | none => exact harray
    | some args =>
        have hlt : array < s.nextArray + 1 := harray
        have hne : array ≠ s.nextArray := fun heq ↦ hpending (.inr ⟨rfl, heq⟩)
        omega
  exact
    { owned :=
        { pending := by
            intro array hpending
            rw [State.trace_queueQuery]
            rw [State.pending_queueQuery] at hpending
            rcases hpending with hpending | ⟨-, rfl⟩
            · exact h.owned.pending array hpending
            · exact h.untouched s.nextArray le_rfl
          passes := by
            rw [State.trace_queueQuery]
            exact h.owned.passes
          freeArray := by
            intro array harray hpending
            rw [State.trace_queueQuery]
            apply h.owned.freeArray array (hsplit array harray hpending)
            exact fun hp ↦ hpending (State.pending_queueQuery.mpr (.inl hp))
          freeBuffers := by
            intro array harray hpending place hplace
            have hlt := hsplit array harray hpending
            rw [State.arrays_queueQuery_of_ne (by omega)] at hplace
            rw [State.trace_queueQuery]
            apply h.owned.freeBuffers array hlt _ place hplace
            exact fun hp ↦ hpending (State.pending_queueQuery.mpr (.inl hp)) }
      single := by
        rw [State.owners_queueQuery]
        split
        · apply List.Nodup.append h.single (List.nodup_singleton _)
          intro array harray hlast
          rw [List.mem_singleton.mp hlast] at harray
          exact absurd (h.numbered _ (State.mem_owners.mp harray)) (lt_irrefl _)
        · simpa using h.single
      numbered := by
        intro array hpending
        rw [State.pending_queueQuery] at hpending
        rcases hpending with hpending | ⟨hargs, rfl⟩
        · exact lt_of_lt_of_le (h.numbered array hpending) hnext
        · obtain ⟨list, rfl⟩ := Option.isSome_iff_exists.mp hargs
          exact Nat.lt_succ_self _
      counted := by
        intro item hitem array hdata
        cases args with
        | none =>
            rcases List.mem_append.mp hitem with hitem | hitem
            · exact h.counted item hitem array hdata
            · rw [List.mem_singleton.mp hitem] at hdata
              cases hdata
        | some args =>
            rcases List.mem_append.mp hitem with hitem | hitem
            · have hlt := h.numbered array ⟨item, hitem, hdata⟩
              rw [State.arrays_queueQuery_of_ne (by omega)]
              exact h.counted item hitem array hdata
            · rw [List.mem_singleton.mp hitem] at hdata ⊢
              obtain rfl := Option.some.inj hdata
              simp [State.queueQuery]
      untouched := by
        intro array harray
        rw [State.trace_queueQuery]
        exact h.untouched array (le_trans hnext harray)
      places := by
        intro array
        by_cases heq : array = s.nextArray
        · cases args with
          | none => exact h.places array
          | some args =>
              subst heq
              simpa [State.queueQuery] using reduceOption_mapIdx_nodup args 0
        · rw [State.arrays_queueQuery_of_ne heq]
          exact h.places array }

/-! ## Completing -/

/-- What a round adds to the trace when no chain function hands the array on. -/
theorem State.events_of_some {s : State} {item : Item} {outcome : Outcome} {array : ℕ}
    (hdata : item.queryData = some array) :
    s.events item outcome =
      .passed array :: ((s.calledBack item outcome).toList.map Event.callback ++
        (s.chained item outcome).toList.map Event.chain) ++
          (s.freed item array ++ [.freeArray array]) := by
  simp [State.events, hdata]

theorem State.not_frees_of_mem_functions {s : State} {item : Item} {outcome : Outcome} {array : ℕ}
    {event : Event}
    (hevent : event ∈ (s.calledBack item outcome).toList.map Event.callback ++
      (s.chained item outcome).toList.map Event.chain) : ¬ event.Frees array := by
  rcases List.mem_append.mp hevent with hmem | hmem
  · obtain ⟨callback, -, rfl⟩ := List.mem_map.mp hmem
    exact fun hfrees ↦ hfrees
  · obtain ⟨chain, -, rfl⟩ := List.mem_map.mp hmem
    exact fun hfrees ↦ hfrees

/-- The events of a round without an array. -/
theorem State.not_frees_of_none {s : State} {item : Item} {outcome : Outcome} {array : ℕ}
    (hdata : item.queryData = none) {event : Event} (hevent : event ∈ s.events item outcome) :
    ¬ event.Frees array := by
  have hfunctions : event ∈ (s.calledBack item outcome).toList.map Event.callback ++
      (s.chained item outcome).toList.map Event.chain := by
    simpa [State.events, hdata] using hevent
  exact State.not_frees_of_mem_functions hfunctions

/-- A round frees only the array of the query it completes. -/
theorem State.eq_of_frees {s : State} {item : Item} {outcome : Outcome} {array other : ℕ}
    (hdata : item.queryData = some array) {event : Event}
    (hevent : event ∈ s.events item outcome) (hfrees : event.Frees other) : other = array := by
  rw [State.events_of_some hdata] at hevent
  rcases List.mem_append.mp hevent with hmem | hmem
  · rcases List.mem_cons.mp hmem with rfl | hmem
    · exact absurd hfrees (fun hfalse ↦ hfalse)
    · exact absurd hfrees (State.not_frees_of_mem_functions hmem)
  · rcases List.mem_append.mp hmem with hmem | hmem
    · unfold State.freed at hmem
      split at hmem
      · obtain ⟨buffer, -, hbuffer⟩ := List.mem_filterMap.mp hmem
        obtain ⟨place, -, rfl⟩ := Option.map_eq_some_iff.mp hbuffer
        exact hfrees.symm
      · cases hmem
    · rw [List.mem_singleton.mp hmem] at hfrees
      exact hfrees.symm

theorem count_eq_zero_of_not_frees {trace : List Event} {array : ℕ} {event : Event}
    (hfrees : event.Frees array) (hnone : ∀ event ∈ trace, ¬ event.Frees array) :
    trace.count event = 0 := by
  apply List.count_eq_zero_of_not_mem
  exact fun hmem ↦ hnone event hmem hfrees

/-- A query without a chain function frees every buffer of its array. -/
theorem State.freed_eq {s : State} {item : Item} {array : ℕ} (hchain : item.chain = none)
    (hcount : item.queryDataCount = (s.arrays array).length) :
    s.freed item array = (s.arrays array).reduceOption.map (Event.freeBuffer array) := by
  unfold State.freed List.reduceOption
  rw [if_pos hchain, hcount, List.take_length, List.map_filterMap]
  rfl

theorem State.count_events_of_some {s : State} {item : Item} {outcome : Outcome} {array : ℕ}
    (hdata : item.queryData = some array) {event : Event} (hfrees : event.Frees array) :
    (s.events item outcome).count event =
      (s.freed item array ++ [Event.freeArray array]).count event := by
  rw [State.events_of_some hdata, List.count_append, List.count_cons_of_ne]
  · rw [count_eq_zero_of_not_frees hfrees, Nat.zero_add]
    exact fun event hevent ↦ State.not_frees_of_mem_functions hevent
  · rintro rfl
    exact hfrees

theorem State.count_freeArray_events {s : State} {item : Item} {outcome : Outcome} {array : ℕ}
    (hdata : item.queryData = some array) :
    (s.events item outcome).count (.freeArray array) = 1 := by
  rw [State.count_events_of_some hdata (Event.frees_freeArray array),
    List.count_append, List.count_singleton_self]
  have hnone : (s.freed item array).count (.freeArray array) = 0 := by
    apply List.count_eq_zero_of_not_mem
    unfold State.freed
    split
    · intro hmem
      obtain ⟨buffer, -, hbuffer⟩ := List.mem_filterMap.mp hmem
      obtain ⟨place, -, hplace⟩ := Option.map_eq_some_iff.mp hbuffer
      cases hplace
    · exact List.not_mem_nil
  rw [hnone]

theorem State.count_freeBuffer_events {s : State} {item : Item} {outcome : Outcome}
    {array place : ℕ} (hdata : item.queryData = some array) :
    (s.events item outcome).count (.freeBuffer array place) =
      (s.freed item array).count (.freeBuffer array place) := by
  rw [State.count_events_of_some hdata (Event.frees_freeBuffer array place),
    List.count_append]
  simp

/-- A round passes the array of its query before it frees anything. -/
theorem passes_append {trace events : List Event}
    (h : ∀ array before after, trace = before ++ .passed array :: after →
      ∀ event ∈ before, ¬ event.Frees array)
    (hevents : ∀ array before after, events = before ++ .passed array :: after →
      before = [] ∧ ∀ event ∈ trace, ¬ event.Frees array) :
    ∀ array before after, trace ++ events = before ++ .passed array :: after →
      ∀ event ∈ before, ¬ event.Frees array := by
  intro array before after htrace
  rcases List.append_eq_append_iff.mp htrace with ⟨middle, hbefore, hmiddle⟩ |
      ⟨middle, htr, hmiddle⟩
  · obtain ⟨hnil, hclean⟩ := hevents array middle after hmiddle
    rw [hbefore, hnil, List.append_nil]
    exact hclean
  · cases middle with
    | nil =>
        obtain ⟨-, hclean⟩ := hevents array [] after hmiddle.symm
        rw [htr, List.append_nil] at hclean
        exact hclean
    | cons first middle =>
        obtain ⟨rfl, -⟩ := List.cons.inj hmiddle
        exact h array before middle htr

/-- Where the events of a round pass an array. -/
theorem State.events_eq_passed {s : State} {item : Item} {outcome : Outcome} {array : ℕ}
    {before after : List Event}
    (hevents : s.events item outcome = before ++ .passed array :: after) :
    before = [] ∧ item.queryData = some array := by
  have hmem : ∀ other : ℕ, Event.passed other ∉
      (s.calledBack item outcome).toList.map Event.callback ++
        (s.chained item outcome).toList.map Event.chain := by
    intro other hmem
    simp at hmem
  cases hdata : item.queryData with
  | none =>
      have hall : s.events item outcome = (s.calledBack item outcome).toList.map Event.callback ++
          (s.chained item outcome).toList.map Event.chain := by
        simp [State.events, hdata]
      apply absurd _ (hmem array)
      rw [← hall, hevents]
      simp
  | some owner =>
      rw [State.events_of_some hdata, List.cons_append] at hevents
      cases before with
      | nil =>
          obtain ⟨hfirst, -⟩ := List.cons.inj hevents
          injection hfirst with howner
          exact ⟨rfl, by rw [howner]⟩
      | cons first before =>
          obtain ⟨-, hrest⟩ := List.cons.inj hevents
          have hpassed : Event.passed array ∈
              (s.calledBack item outcome).toList.map Event.callback ++
              (s.chained item outcome).toList.map Event.chain ++
                (s.freed item owner ++ [.freeArray owner]) := by
            rw [hrest]
            simp
          rcases List.mem_append.mp hpassed with hpassed | hpassed
          · exact absurd hpassed (hmem array)
          · simp [State.freed] at hpassed

/-- Completing a query without an array. -/
theorem OwnedInv.complete_none {s : State} (h : OwnedInv s) {item : Item} {rest : List Item}
    (hqueue : s.queue = item :: rest) (hdata : item.queryData = none) (outcome : Outcome) :
    OwnedInv (s.complete item rest outcome) := by
  have howners : (s.complete item rest outcome).owners = s.owners := by
    unfold State.owners
    rw [hqueue, List.filterMap_cons_none hdata]
    cases hchained : s.chained item outcome <;>
      simp [State.complete, hchained, ChainFunc.next, hdata]
  have hpending : ∀ array, (s.complete item rest outcome).Pending array ↔ s.Pending array := by
    intro array
    rw [← State.mem_owners, ← State.mem_owners, howners]
  have harrays : (s.complete item rest outcome).arrays = s.arrays := by
    simp [State.complete, hdata]
  have htrace : (s.complete item rest outcome).trace = s.trace ++ s.events item outcome := rfl
  have hclean : ∀ array, (∀ event ∈ s.trace, ¬ event.Frees array) →
      ∀ event ∈ (s.complete item rest outcome).trace, ¬ event.Frees array := by
    intro array hbefore event hevent
    rw [htrace] at hevent
    rcases List.mem_append.mp hevent with hevent | hevent
    · exact hbefore event hevent
    · exact State.not_frees_of_none hdata hevent
  have hcount : ∀ array event, Event.Frees array event →
      (s.complete item rest outcome).trace.count event = s.trace.count event := by
    intro array event hfrees
    rw [htrace, List.count_append, count_eq_zero_of_not_frees hfrees (fun event hevent ↦
      State.not_frees_of_none hdata hevent), Nat.add_zero]
  exact
    { owned :=
        { pending := by
            intro array hp
            exact hclean array (h.owned.pending array ((hpending array).mp hp))
          passes := by
            rw [htrace]
            apply passes_append h.owned.passes
            intro array before after hevents
            obtain ⟨-, hsome⟩ := State.events_eq_passed hevents
            rw [hdata] at hsome
            cases hsome
          freeArray := by
            intro array harray hp
            rw [hcount array _ (Event.frees_freeArray array)]
            rw [hpending] at hp
            exact h.owned.freeArray array harray hp
          freeBuffers := by
            intro array harray hp place hplace
            rw [hcount array _ (Event.frees_freeBuffer array place)]
            rw [hpending] at hp
            rw [harrays] at hplace
            exact h.owned.freeBuffers array harray hp place hplace }
      single := by
        rw [howners]
        exact h.single
      numbered := by
        intro array hp
        exact h.numbered array ((hpending array).mp hp)
      counted := by
        intro other hother array hsome
        rw [harrays]
        rcases List.mem_append.mp hother with hother | hother
        · apply h.counted other _ array hsome
          rw [hqueue]
          exact List.mem_cons_of_mem _ hother
        · obtain ⟨chain, -, rfl⟩ := List.mem_map.mp hother
          rw [ChainFunc.next, hdata] at hsome
          cases hsome
      untouched := by
        intro array harray
        exact hclean array (h.untouched array harray)
      places := by
        rw [harrays]
        exact h.places }

/-- Completing a query whose array is not handed on, and whose buffers are freed or were NULL. -/
theorem OwnedInv.complete_some {s : State} (h : OwnedInv s) {item : Item} {rest : List Item}
    (hqueue : s.queue = item :: rest) {owner : ℕ} (hdata : item.queryData = some owner)
    {outcome : Outcome} (hchained : s.chained item outcome = none)
    (hbuffers : item.chain = none ∨ ∀ buffer ∈ s.arrays owner, buffer = none) :
    OwnedInv (s.complete item rest outcome) := by
  have hlist : (s.complete item rest outcome).queue = rest := by
    simp [State.complete, hchained]
  have harrays : (s.complete item rest outcome).arrays = s.arrays := by
    simp [State.complete, hchained]
  have htrace : (s.complete item rest outcome).trace = s.trace ++ s.events item outcome := rfl
  have howners : s.owners = owner :: (s.complete item rest outcome).owners := by
    unfold State.owners
    rw [hlist, hqueue, List.filterMap_cons_some hdata]
  have hsingle := h.single
  rw [howners, List.nodup_cons, State.mem_owners] at hsingle
  have hpending : ∀ array, s.Pending array ↔
      array = owner ∨ (s.complete item rest outcome).Pending array := by
    intro array
    rw [← State.mem_owners, ← State.mem_owners, howners, List.mem_cons]
  have hfirst : ∀ event ∈ s.trace, ¬ event.Frees owner :=
    h.owned.pending owner ((hpending owner).mpr (.inl rfl))
  have hclean : ∀ array, array ≠ owner → (∀ event ∈ s.trace, ¬ event.Frees array) →
      ∀ event ∈ (s.complete item rest outcome).trace, ¬ event.Frees array := by
    intro array hne hbefore event hevent
    rw [htrace] at hevent
    rcases List.mem_append.mp hevent with hevent | hevent
    · exact hbefore event hevent
    · exact fun hfrees ↦ hne (State.eq_of_frees hdata hevent hfrees)
  have hcount : ∀ array event, array ≠ owner → Event.Frees array event →
      (s.complete item rest outcome).trace.count event = s.trace.count event := by
    intro array event hne hfrees
    rw [htrace, List.count_append, count_eq_zero_of_not_frees hfrees (fun event hevent hfr ↦
      hne (State.eq_of_frees hdata hevent hfr)), Nat.add_zero]
  have howner : ∀ event, Event.Frees owner event →
      (s.complete item rest outcome).trace.count event = (s.events item outcome).count event := by
    intro event hfrees
    rw [htrace, List.count_append, count_eq_zero_of_not_frees hfrees hfirst, Nat.zero_add]
  exact
    { owned :=
        { pending := by
            intro array hp
            apply hclean array
            · rintro rfl
              exact hsingle.1 hp
            · exact h.owned.pending array ((hpending array).mpr (.inr hp))
          passes := by
            rw [htrace]
            apply passes_append h.owned.passes
            intro array before after hevents
            obtain ⟨hnil, hsome⟩ := State.events_eq_passed hevents
            rw [hdata] at hsome
            obtain rfl := Option.some.inj hsome
            exact ⟨hnil, hfirst⟩
          freeArray := by
            intro array harray hp
            by_cases heq : array = owner
            · subst heq
              rw [howner _ (Event.frees_freeArray array)]
              exact State.count_freeArray_events hdata
            · rw [hcount array _ heq (Event.frees_freeArray array)]
              apply h.owned.freeArray array harray
              rw [hpending]
              exact fun hor ↦ hor.elim heq hp
          freeBuffers := by
            intro array harray hp place hplace
            rw [harrays] at hplace
            by_cases heq : array = owner
            · subst heq
              rw [howner _ (Event.frees_freeBuffer array place),
                State.count_freeBuffer_events hdata]
              rcases hbuffers with hchain | hnull
              · have hlength := h.counted item
                    (by rw [hqueue]; exact List.mem_cons_self) array hdata
                rw [State.freed_eq hchain hlength, List.count_map_of_injective]
                · apply List.count_eq_one_of_mem (h.places array)
                  exact List.reduceOption_mem_iff.mpr hplace
                · intro first second heq
                  injection heq
              · cases hnull _ hplace
            · rw [hcount array _ heq (Event.frees_freeBuffer array place)]
              apply h.owned.freeBuffers array harray _ place hplace
              rw [hpending]
              exact fun hor ↦ hor.elim heq hp }
      single := hsingle.2
      numbered := by
        intro array hp
        exact h.numbered array ((hpending array).mpr (.inr hp))
      counted := by
        intro other hother array hsome
        rw [harrays]
        rw [hlist] at hother
        apply h.counted other _ array hsome
        rw [hqueue]
        exact List.mem_cons_of_mem _ hother
      untouched := by
        intro array harray
        apply hclean array
        · rintro rfl
          have hlt := h.numbered array ((hpending array).mpr (.inl rfl))
          exact absurd harray (Nat.not_le.mpr hlt)
        · exact h.untouched array harray
      places := by
        rw [harrays]
        exact h.places }

theorem State.chained_eq_none {s : State} {item : Item} {outcome : Outcome}
    (hrun : item.chain = none ∨ s.answers outcome = false ∨ item.callback ≠ none) :
    s.chained item outcome = none := by
  unfold State.chained
  split
  · rcases hrun with hchain | hrun
    · exact hchain
    · simp_all
  · rfl

theorem OwnedInv.step {s s' : State} {a : Action} (h : OwnedInv s) (hsettles : Settles s a)
    (hstep : step s a = some s') : OwnedInv s' := by
  cases a with
  | queue callback chain args =>
      obtain rfl := Option.some.inj hstep
      exact h.queueQuery callback chain args
  | complete outcome =>
      cases hqueue : s.queue with
      | nil => simp [Completion.step, hqueue] at hstep
      | cons item rest =>
          simp only [Completion.step, hqueue, Option.some.injEq] at hstep
          subst hstep
          cases hdata : item.queryData with
          | none => exact h.complete_none hqueue hdata outcome
          | some owner =>
              rcases hsettles item rest hqueue with hchain | hnone | ⟨array, harray, hrun, hnull⟩
              · exact h.complete_some hqueue hdata (State.chained_eq_none (.inl hchain))
                  (.inl hchain)
              · rw [hdata] at hnone
                cases hnone
              · rw [hdata] at harray
                obtain rfl := Option.some.inj harray
                exact h.complete_some hqueue hdata (State.chained_eq_none (.inr hrun)) (.inr hnull)

theorem Run.ownedInv {s : State} (h : Run Settles s) : OwnedInv s := by
  induction h with
  | start insertid => exact OwnedInv.initial insertid
  | next _ hguard hstep ih => exact ih.step hguard hstep

/-! ## Chain functions break the rule -/

/-- A chain function that runs queues a query with the array that the round frees. -/
theorem State.not_owned_of_chained {s : State} {item : Item} {rest : List Item} {owner : ℕ}
    (hdata : item.queryData = some owner) {outcome : Outcome}
    (hchained : (s.chained item outcome).isSome) : ¬ Owned (s.complete item rest outcome) := by
  intro howned
  obtain ⟨chain, hchain⟩ := Option.isSome_iff_exists.mp hchained
  have hpending : (s.complete item rest outcome).Pending owner := by
    refine ⟨chain.next outcome.found item.queryData, ?_, hdata⟩
    simp [State.complete, hchain]
  have hmem : Event.freeArray owner ∈ (s.complete item rest outcome).trace := by
    apply List.mem_append_right
    rw [State.events_of_some hdata]
    simp
  exact howned.pending owner hpending _ hmem (Event.frees_freeArray owner)

/-- A chain function that does not run leaves the buffers behind. -/
theorem OwnedInv.buffers_null {s : State} (h : OwnedInv s) {item : Item} {rest : List Item}
    (hqueue : s.queue = item :: rest) {owner : ℕ} (hdata : item.queryData = some owner)
    {outcome : Outcome} (hchain : item.chain ≠ none) (hchained : s.chained item outcome = none)
    (howned : Owned (s.complete item rest outcome)) : ∀ buffer ∈ s.arrays owner, buffer = none := by
  have hpending : s.Pending owner := by
    refine ⟨item, ?_, hdata⟩
    rw [hqueue]
    exact List.mem_cons_self
  have hended : ¬ (s.complete item rest outcome).Pending owner := by
    have hsingle := h.single
    unfold State.owners at hsingle
    rw [hqueue, List.filterMap_cons_some hdata, List.nodup_cons] at hsingle
    rw [← State.mem_owners, State.owners]
    simpa [State.complete, hchained] using hsingle.1
  have harrays : (s.complete item rest outcome).arrays owner = s.arrays owner := by
    simp [State.complete, hchained]
  intro buffer hbuffer
  cases buffer with
  | none => rfl
  | some place =>
      have hone := howned.freeBuffers owner (h.numbered owner hpending) hended place
        (by rw [harrays]; exact hbuffer)
      have hzero : s.trace.count (.freeBuffer owner place) = 0 :=
        count_eq_zero_of_not_frees (Event.frees_freeBuffer owner place)
          (h.owned.pending owner hpending)
      have htrace : (s.complete item rest outcome).trace = s.trace ++ s.events item outcome := rfl
      rw [htrace, List.count_append, hzero, State.count_freeBuffer_events hdata, State.freed,
        if_neg hchain] at hone
      cases hone

/-- As long as no query with a chain function and an array is completed, except one whose arguments
are NULL and whose chain function does not run, arrays and buffers are freed once and not early;
and completing any other query breaks this. -/
theorem arrays_freed_once {s : State} (h : Run Settles s) :
    Owned s ∧ ∀ outcome s', step s (.complete outcome) = some s' →
      (Owned s' ↔ Settles s (.complete outcome)) := by
  have hinv := h.ownedInv
  refine ⟨hinv.owned, ?_⟩
  intro outcome s' hstep
  constructor
  · intro howned item rest hqueue
    simp only [step, hqueue, Option.some.injEq] at hstep
    subst hstep
    by_cases hchain : item.chain = none
    · exact .inl hchain
    cases hdata : item.queryData with
    | none => exact .inr (.inl rfl)
    | some owner =>
        have hchained : s.chained item outcome = none := by
          by_contra hsome
          exact State.not_owned_of_chained hdata (Option.isSome_iff_ne_none.mpr hsome) howned
        have hrun : s.answers outcome = false ∨ item.callback ≠ none := by
          by_contra hrun
          unfold State.chained at hchained
          rw [if_pos (by simpa using hrun)] at hchained
          exact hchain hchained
        exact .inr (.inr ⟨owner, rfl, hrun, hinv.buffers_null hqueue hdata hchain hchained howned⟩)
  · intro hsettles
    exact (hinv.step hsettles hstep).owned

/-- A query without a chain function, such as the one of `db_mysql_get_setting`. -/
theorem arrays_freed_once_get_setting :
    Owned (((State.initial 0).queueQuery (some .getSetting) none (some [false])).complete
      ⟨some .getSetting, none, some 0, 1⟩ [] (.stored (some 1) 0)) := by
  have hqueued : Run Settles
      ((State.initial 0).queueQuery (some .getSetting) none (some [false])) :=
    .next (a := .queue (some .getSetting) none (some [false])) (.start 0) trivial rfl
  have hsettles : Settles ((State.initial 0).queueQuery (some .getSetting) none (some [false]))
      (.complete (.stored (some 1) 0)) := by
    intro item rest hqueue
    obtain ⟨rfl, -⟩ := List.cons.inj hqueue
    exact .inl rfl
  exact (arrays_freed_once (.next hqueued hsettles rfl)).1

/-- `db_mysql_set_setting` for a setting without a row: the query that inserts the row waits with an
array that was freed. -/
theorem set_setting_frees_early :
    ∃ s, Run (fun _ _ ↦ True) s ∧ s.queue = [⟨none, none, some 0, 2⟩] ∧
      Event.freeArray 0 ∈ s.trace ∧ ¬ Owned s := by
  let queued := (State.initial 0).queueQuery none (some .setSetting) (some [false, false])
  have hqueued : Run (fun _ _ ↦ True) queued :=
    .next (a := .queue none (some .setSetting) (some [false, false])) (.start 0) trivial rfl
  refine ⟨queued.complete ⟨none, some .setSetting, some 0, 2⟩ [] (.stored (some 0) 0),
    .next (a := .complete (.stored (some 0) 0)) hqueued trivial rfl, rfl, by decide, ?_⟩
  exact State.not_owned_of_chained rfl rfl

end HavokMud.Mysql.Completion
