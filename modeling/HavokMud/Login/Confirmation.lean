import HavokMud.Login.Interleaving

/-!
# Confirmation of accounts

An account is confirmed by the code that was sent to its e-mail.  The flag stays what it is as long
as no party saves a copy that is out of date, `webServiceConfirm` finds no account that has another
code than the presented one, and no confirmed account chooses its colours.
-/

namespace HavokMud.Login

open Interaction BTree Mysql Relation

section Confirmation

variable {collate : Text → Text} {env : Environment} {s s' : System} {event : Event} {db : Database}

/-- A table with one account. -/
def oneAccount (confirmed : Bool) (confcode : Text) : Database :=
  ⟨[], [⟨1, someEmail, somePasswd, true, confirmed, confcode⟩], 2, [], 1, []⟩

theorem numbered_oneAccount (confirmed : Bool) (confcode : Text) :
    Numbered (oneAccount confirmed confcode) := by
  have hnext : (0 : ℤ) < 1 ∧ (1 : ℤ) < 2 := ⟨by decide, by decide⟩
  refine ⟨List.pairwise_singleton _ _, ?_, hnext.1.trans hnext.2⟩
  intro row hrow
  rw [List.mem_singleton.mp hrow]
  exact hnext

/-- A line at a time at which nothing is locked. -/
def typed (p : ℕ) (line : Text) : Event :=
  .line p ⟨0, false, false⟩ (some line)

/-! ## Becoming confirmed -/

variable (collate) in
/-- An account that is not confirmed yet is found by its code only: `webServiceConfirm` does not
find it for an empty code, nor for one that differs from its code in more than case. -/
def FoundByCode (s : System) (event : Event) : Prop :=
  ∀ p pc code, event = .call p pc → (s.parties p).asks = some (.loadAccountByConfirm code) →
    ∀ row ∈ firstAccount collate s.db (.loadAccountByConfirm code), row.confirmed = false →
      code ≠ [] ∧ fold code = fold row.confcode

/-- A copy with the flag is saved over a row without it only by a party that has seen the row
without the flag and with the code that it still has. -/
def ConfirmsSeen (s : System) (event : Event) : Prop :=
  ∀ p pc account, event = .call p pc → (s.parties p).asks = some (.saveAccount account) →
    account.confirmed = true → ∀ row ∈ s.db.accounts, row.id = account.id → row.confirmed = false →
      ∃ old, (s.parties p).view.seen = .row old ∧ old.confirmed = false ∧
        old.confcode = row.confcode

variable (collate) in
structure ConfirmGuard (s : System) (event : Event) : Prop where
  found : FoundByCode collate s event
  seen : ConfirmsSeen s event

/-- What `webServiceConfirm` finds. -/
def Confirmable (code : Text) (row : Account) : Prop :=
  row.confirmed = true ∨ (code ≠ [] ∧ fold code = fold row.confcode)

theorem ConfirmGuard.step (hguard : ConfirmGuard collate s event) (h : Inv Confirmable s)
    (hstep : s.step collate env event = some s') : Inv Confirmable s' := by
  apply h.step (fun _ _ hne hfold ↦ .inr ⟨hne, hfold⟩) _ hstep
  intro p pc code hevent hasks row hrow
  cases hflag : row.confirmed with
  | true => exact .inl hflag
  | false => exact .inr (hguard.found p pc code hevent hasks row hrow hflag)

theorem inv_confirmable (hdb : Numbered db)
    (h : ReflTransGen (Guarded collate env (ConfirmGuard collate)) (System.create db) s) :
    Inv Confirmable s := by
  induction h with
  | refl => exact inv_create hdb
  | tail _ hstep ih =>
      obtain ⟨event, hguard, hstep⟩ := hstep
      exact hguard.step ih hstep

/-- The flag of an account is set by a request that presents the code of the account. -/
theorem confirmed_by_code (hdb : Numbered db)
    (h : ReflTransGen (Guarded collate env (ConfirmGuard collate)) (System.create db) s)
    (hguard : ConfirmGuard collate s event) (hstep : s.step collate env event = some s')
    {row row' : Account} (hrow : row ∈ s.db.accounts) (hflag : row.confirmed = false)
    (hrow' : row' ∈ s'.db.accounts) (hid : row'.id = row.id) (hflag' : row'.confirmed = true) :
    ∃ p pc code, event = .call p pc ∧ (s.parties p).view.request.presents = some code ∧ code ≠ [] ∧
      fold code = fold row.confcode := by
  have hinv := inv_confirmable hdb h
  rcases hinv.row_step hstep hrow hrow' hid with
    rfl | ⟨p, pc, account, old, hevent, hasks, hsaved, hcopy, hkept⟩
  · rw [hflag] at hflag'
    cases hflag'
  obtain ⟨hsavedId, -, hsavedFlag, -⟩ := row_fields hsaved
  have htrue : account.confirmed = true := hsavedFlag.symm.trans hflag'
  obtain ⟨seen, hseen, hunset, hcode⟩ := hguard.seen p pc account hevent hasks htrue row hrow
    (hid.symm.trans hsavedId) hflag
  obtain rfl : old = seen := by
    rw [hcopy.seen] at hseen
    exact Seen.row.inj hseen
  refine ⟨p, pc, ?_⟩
  rcases hkept with hsame | ⟨-, code, hpresents, hfound⟩ | ⟨hfalse, -⟩
  · rw [htrue, hunset] at hsame
    cases hsame
  · rcases hfound with hset | ⟨hne, hfold⟩
    · rw [hunset] at hset
      cases hset
    · exact ⟨code, hevent, hpresents, hne, hcode ▸ hfold⟩
  · rw [htrue] at hfalse
    cases hfalse

theorem confirmGuard_call {p : ℕ} (op : Op) (hasks : (s.parties p).asks = some op)
    (hfound : ∀ code, op = .loadAccountByConfirm code →
      ∀ row ∈ firstAccount collate s.db (.loadAccountByConfirm code), row.confirmed = false →
        code ≠ [] ∧ fold code = fold row.confcode)
    (hseen : ∀ account, op = .saveAccount account → ∀ row ∈ s.db.accounts, row.id = account.id →
      row.confirmed = false → ∃ old, (s.parties p).view.seen = .row old ∧ old.confirmed = false ∧
        old.confcode = row.confcode) (pc : Option Found) :
    ConfirmGuard collate s (.call p pc) := by
  constructor
  · intro q pc' code hevent hcode
    injection hevent with hp
    subst hp
    exact hfound code (Option.some.inj (hasks.symm.trans hcode))
  · intro q pc' account hevent hsave _
    injection hevent with hp
    subst hp
    exact hseen account (Option.some.inj (hasks.symm.trans hsave))

/-- A web request that presents the code in another case. -/
theorem confirmed_by_code_web : ∃ s s' : System, ∃ row ∈ s.db.accounts, ∃ row' ∈ s'.db.accounts,
    s.step lowerText plainEnvironment (.call 0 none) = some s' ∧ row.confirmed = false ∧
      row'.id = row.id ∧ row'.confirmed = true ∧
      ∃ p pc code, Event.call 0 none = .call p pc ∧
        (s.parties p).view.request.presents = some code ∧ code ≠ [] ∧
        fold code = fold row.confcode := by
  let step := fun (s : System) (event : Event) ↦ (s.step lowerText plainEnvironment event).getD s
  let s₀ := System.create (oneAccount false [65])
  let s₁ := step s₀ (.confirm 0 (some [97]))
  let s₂ := step s₁ (.call 0 none)
  have hguard₀ : ConfirmGuard lowerText s₀ (.confirm 0 (some [97])) := by
    constructor
    · intro p pc code hevent
      cases hevent
    · intro p pc account hevent
      cases hevent
  have hguard₁ : ConfirmGuard lowerText s₁ (.call 0 none) := by
    refine confirmGuard_call (.loadAccountByConfirm [97]) rfl ?_ ?_ none
    · intro code hcode row hrow _
      obtain rfl := Op.loadAccountByConfirm.inj hcode
      obtain rfl := Option.some.inj hrow
      exact ⟨by decide, by decide⟩
    · intro account haccount
      cases haccount
  have hguard₂ : ConfirmGuard lowerText s₂ (.call 0 none) := by
    refine confirmGuard_call _ rfl ?_ ?_ none
    · intro code hcode
      cases hcode
    · intro account _ row hrow _ _
      rw [List.mem_singleton.mp hrow]
      exact ⟨_, rfl, rfl, rfl⟩
  have hrun : ReflTransGen (Guarded lowerText plainEnvironment (ConfirmGuard lowerText)) s₀ s₂ :=
    (ReflTransGen.single ⟨_, hguard₀, rfl⟩).tail ⟨_, hguard₁, rfl⟩
  refine ⟨s₂, step s₂ (.call 0 none), _, List.mem_singleton.mpr rfl, _, List.mem_singleton.mpr rfl,
    rfl, rfl, rfl, rfl, ?_⟩
  exact confirmed_by_code
    (numbered_oneAccount false [65]) hrun hguard₂ rfl (List.mem_singleton.mpr rfl)
    rfl (List.mem_singleton.mpr rfl) rfl rfl

/-- A session registers an account, whose row has no code before its second save. -/
def registers : List Event :=
  [.connect 0, typed 0 [120], typed 0 someEmail, .call 0 none, typed 0 [121], typed 0 [112],
    typed 0 [112], typed 0 [121], .call 0 none]

/-- A web request confirms a new account with an empty code. -/
theorem confirmed_by_empty_code : ∃ s s' : System, ∃ row ∈ s.db.accounts, ∃ row' ∈ s'.db.accounts,
    (System.create ⟨[], [], 1, [], 1, []⟩).run lowerText plainEnvironment
      (registers ++ [.confirm 1 (some []), .call 1 none]) = some s ∧
    s.step lowerText plainEnvironment (.call 1 none) = some s' ∧ row.confirmed = false ∧
      row'.id = row.id ∧ row'.confirmed = true ∧
      ¬ ∃ p pc code, Event.call 1 none = .call p pc ∧
        (s.parties p).view.request.presents = some code ∧ code ≠ [] ∧
        fold code = fold row.confcode := by
  let run := (System.create ⟨[], [], 1, [], 1, []⟩).run lowerText plainEnvironment
    (registers ++ [.confirm 1 (some []), .call 1 none])
  obtain ⟨s, hrun⟩ := Option.isSome_iff_exists.mp (by decide +kernel : run.isSome = true)
  have hfacts : run.any (fun s ↦
      s.db.accounts = [⟨1, someEmail, somePasswd, true, false, []⟩] ∧
        (s.parties 1).view.request.presents = some [] ∧
        (s.step lowerText plainEnvironment (.call 1 none)).any fun s' ↦
          s'.db.accounts = [⟨1, someEmail, somePasswd, true, true, []⟩]) = true := by
    decide +kernel
  rw [hrun, Option.any_some, decide_eq_true_eq] at hfacts
  obtain ⟨haccounts, hpresents, hstep⟩ := hfacts
  obtain ⟨s', hs', haccounts'⟩ := (Option.any_eq_true _ _).mp hstep
  rw [decide_eq_true_eq] at haccounts'
  have hrow : ⟨1, someEmail, somePasswd, true, false, []⟩ ∈ s.db.accounts := by
    rw [haccounts]
    exact List.mem_singleton.mpr rfl
  have hrow' : ⟨1, someEmail, somePasswd, true, true, []⟩ ∈ s'.db.accounts := by
    rw [haccounts']
    exact List.mem_singleton.mpr rfl
  refine ⟨s, s', _, hrow, _, hrow', hrun, hs', rfl, rfl, rfl, ?_⟩
  rintro ⟨p, pc, code, hevent, hcode, hne, -⟩
  obtain ⟨rfl, rfl⟩ := Event.call.inj hevent
  rw [hpresents] at hcode
  exact hne (Option.some.inj hcode).symm

/-! ## Staying confirmed -/

/-- No session of a confirmed account without a code chooses its colours. -/
def NoRecolour (s : System) (event : Event) : Prop :=
  ∀ p moment line player, event = .line p moment line →
    (s.parties p).dialog = .done (some player) → ¬ (Request.line player line).Recolours

/-- A copy without the flag is saved over a row with it only by a party that has seen the flag. -/
def ClearsSeen (s : System) (event : Event) : Prop :=
  ∀ p pc account, event = .call p pc → (s.parties p).asks = some (.saveAccount account) →
    account.confirmed = false → ∀ row ∈ s.db.accounts, row.id = account.id → row.confirmed = true →
      ∃ old, (s.parties p).view.seen = .row old ∧ old.confirmed = true

structure KeepGuard (s : System) (event : Event) : Prop where
  recolour : NoRecolour s event
  seen : ClearsSeen s event

/-- No party serves the choice of colours of a confirmed account. -/
structure KeepInv (s : System) : Prop where
  inv : Inv (fun _ _ ↦ True) s
  requests : ∀ p, ¬ (s.parties p).view.request.Recolours

theorem Starts.not_recolours {request : Request} {dialog : Dialog (Option Player)}
    (h : Starts env request dialog) : ¬ request.Recolours := by
  cases h <;> exact not_false

theorem KeepGuard.step (hguard : KeepGuard s event) (h : KeepInv s)
    (hstep : s.step collate env event = some s') : KeepInv s' := by
  have hset : ∀ {p : ℕ} {party : Party}, ¬ party.view.request.Recolours →
      ∀ q, ¬ ((s.set p party).parties q).view.request.Recolours := by
    intro p party hparty q
    rcases eq_or_ne q p with rfl | hq
    · rw [System.set_self]
      exact hparty
    · rw [System.set_of_ne s party hq]
      exact h.requests q
  refine ⟨h.inv.step (fun _ _ _ _ ↦ trivial) (fun _ _ _ _ _ _ _ ↦ trivial) hstep, ?_⟩
  rcases step_cases hstep with ⟨p, request, dialog, hstarts, -, rfl⟩ |
    ⟨p, moment, line, player, hevent, hidle, rfl⟩ |
    ⟨p, pc, op, next, -, -, ⟨-, rfl⟩ | ⟨db, ans, -, rfl⟩⟩
  · exact hset hstarts.not_recolours
  · exact hset (hguard.recolour p moment line player hevent hidle)
  · exact hset (h.requests p)
  · exact hset (h.requests p)

end Confirmation

end HavokMud.Login
