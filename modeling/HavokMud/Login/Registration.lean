import HavokMud.Login.Confirmation

/-!
# Registration of e-mails

A party looks whether an e-mail has a row, and saves the new account later.  The table has no key on
the e-mail, so two parties may find that an e-mail is free before one of them has saved its account.
-/

namespace HavokMud.Login

open Interaction BTree Mysql Relation

/-- The e-mail of an account that was not saved yet. -/
def PlayerAccount.unsaved (account : PlayerAccount) : Option Text :=
  if account.id = 0 then account.email else none

/-- The e-mail that a party has found free and will save: a session from the question whether the
e-mail is right up to the first save, or `webServiceRegister` at its save. -/
def Party.creating (party : Party) : Option Text :=
  match party.dialog with
  | .done (some player) =>
      if player.state.creates then player.account.bind PlayerAccount.unsaved else none
  | .ask (.saveAccount account) _ => account.unsaved
  | _ => none

section Registration

variable {collate : Text → Text} {env : Environment} {s s' : System} {event : Event} {db : Database}
  {κ : Type} {key : Text → κ}

variable (key) in
/-- No e-mail is looked up for a new account while another party creates one with it. -/
def ChecksAlone (s : System) (event : Event) : Prop :=
  ∀ p pc email, event = .call p pc → (s.parties p).asks = some (.loadAccount email) →
    (s.parties p).view.request ≠ .login →
      ∀ q ≠ p, ∀ other ∈ (s.parties q).creating, key other ≠ key email

variable (key) in
/-- No two rows have the same e-mail. -/
def DistinctEmails (db : Database) : Prop :=
  db.accounts.Pairwise fun row row' ↦ key row.email ≠ key row'.email

/-! ## Parties that create an account -/

/-- A party that creates an account has found its e-mail free. -/
theorem Party.OnWay.creating {found : Text → Account → Prop} {party : Party} (h : party.OnWay found)
    {email : Text} (hcreating : party.creating = some email) :
    party.view.seen = .absent email ∧ party.view.request ≠ .login := by
  have hnew : ∀ {account : PlayerAccount}, New party.view.seen account →
      account.unsaved = some email → party.view.seen = .absent email := by
    intro account hnew hunsaved
    rw [PlayerAccount.unsaved, if_pos hnew.id] at hunsaved
    obtain ⟨other, hother, hseen⟩ := hnew.email
    rw [hseen, Option.some.inj (hother.symm.trans hunsaved)]
  have hold : ∀ {account : PlayerAccount} {row : Account}, CopyOf party.view.seen account row →
      account.unsaved = some email → False := by
    intro account row hcopy hunsaved
    rw [PlayerAccount.unsaved, if_neg (hcopy.id.trans_ne hcopy.known)] at hunsaved
    cases hunsaved
  unfold Party.OnWay at h
  unfold Party.creating at hcreating
  split at hcreating
  · next player hidle =>
      rw [hidle] at h
      obtain ⟨hsettled, hlogin⟩ := h player rfl
      split_ifs at hcreating with hstate
      obtain ⟨account, haccount, hunsaved⟩ := Option.bind_eq_some_iff.mp hcreating
      rcases hsettled with hanonymous | ⟨a, ha, ⟨hfresh, -, -⟩ | ⟨⟨row, hcopy, -⟩, -⟩⟩
      · rw [anonymous_of_creates hstate] at hanonymous
        cases hanonymous
      · obtain rfl := Option.some.inj (haccount.symm.trans ha)
        exact ⟨hnew hfresh hunsaved, hlogin⟩
      · obtain rfl := Option.some.inj (haccount.symm.trans ha)
        exact (hold hcopy hunsaved).elim
  · next account next hask =>
      rw [hask] at h
      rcases h.1 with ⟨hfresh, hlogin⟩ | ⟨row, hcopy, -⟩
      · exact ⟨hnew hfresh hcreating, hlogin⟩
      · exact (hold hcopy hcreating).elim
  · cases hcreating

/-- A session that gets a line creates no other account than before. -/
theorem creating_line {found : Text → Account → Prop}
    (hfound : ∀ code row, code ≠ [] → fold code = fold row.confcode → found code row)
    {party : Party} {player : Player} (h : party.OnWay found)
    (hidle : party.dialog = .done (some player)) (moment : Moment) (line : Option Text)
    {email : Text}
    (hcreating : Party.creating ⟨party.view.serve player line,
      loginStateMachine env moment player line >>= fun player ↦ pure (some player)⟩ = some email) :
    party.creating = some email := by
  have hseen := ((onWay_line env hfound h hidle moment line).creating hcreating).1
  unfold Party.OnWay at h
  rw [hidle] at h
  have hsettled := (h player rfl).1
  change (if player.state.anonymous then Seen.nothing else party.view.seen) = .absent email at hseen
  split_ifs at hseen with hanonymous
  rcases hsettled with htrue | ⟨a, ha, ⟨hnew, -, hstate⟩ | ⟨⟨row, hcopy, -⟩, -⟩⟩
  · exact absurd htrue hanonymous
  · obtain ⟨other, hother, habsent⟩ := hnew.email
    rw [habsent] at hseen
    unfold Party.creating
    rw [hidle]
    simp only [hstate, if_true, ha, Option.bind_some, PlayerAccount.unsaved, hnew.id, hother]
    rw [Seen.absent.inj hseen]
  · rw [hcopy.seen] at hseen
    cases hseen

/-! ## E-mails in the table -/

/-- The ids and e-mails of the table. -/
def emails (db : Database) : List (ℤ × Text) :=
  db.accounts.map fun row ↦ (row.id, row.email)

theorem distinctEmails_iff :
    DistinctEmails key db ↔ (emails db).Pairwise fun owner owner' ↦ key owner.2 ≠ key owner'.2 := by
  unfold DistinctEmails emails
  rw [List.pairwise_map]

/-- A save under the e-mail that the row has. -/
theorem written_known (h : Numbered db) {row : Account} (hrow : (row.id, row.email) ∈ emails db) :
    emails (written db row).1 = emails db ∧ (written db row).2 = row.id := by
  obtain ⟨old, hold, heq⟩ := List.mem_map.mp hrow
  obtain ⟨hid, hemail⟩ := Prod.mk.inj heq
  unfold written
  rw [if_pos ⟨old, hold, hid⟩]
  refine ⟨?_, rfl⟩
  unfold emails
  rw [List.map_map]
  apply List.map_congr_left
  intro other hother
  rw [Function.comp_apply]
  split_ifs with hsame
  · rw [h.eq_of_id hold hother (hsame.trans hid.symm), hid, hemail]
  · rfl

/-- A save of a new account. -/
theorem written_new (h : Numbered db) {row : Account} (hrow : row.id = 0) :
    emails (written db row).1 = emails db ++ [(db.nextAccount, row.email)] ∧
      (written db row).2 = db.nextAccount := by
  have hnone : ¬ ∃ old ∈ db.accounts, old.id = row.id := by
    rintro ⟨old, hold, hid⟩
    exact (h.positive old hold).1.ne' (hid.trans hrow)
  unfold written
  rw [if_neg hnone]
  unfold emails
  rw [List.map_append]
  exact ⟨rfl, rfl⟩

/-! ## The invariant -/

variable (key) in
/-- The e-mails that are created are free and differ from each other, and what a party has seen of a
row has the e-mail of the row. -/
structure Apart (s : System) : Prop where
  inv : Inv (fun _ _ ↦ True) s
  distinct : DistinctEmails key s.db
  free : ∀ p, ∀ email ∈ (s.parties p).creating, ∀ owner ∈ emails s.db, key owner.2 ≠ key email
  apart : ∀ p, ∀ email ∈ (s.parties p).creating, ∀ q ≠ p, ∀ other ∈ (s.parties q).creating,
    key other ≠ key email
  seen : ∀ p row, (s.parties p).view.seen = .row row → (row.id, row.email) ∈ emails s.db

theorem apart_create (hdb : Numbered db) (h : DistinctEmails key db) :
    Apart key (System.create db) := by
  refine ⟨inv_create hdb, h, ?_, ?_, ?_⟩
  · intro p email hemail
    cases hemail
  · intro p email hemail
    cases hemail
  · intro p row hrow
    cases hrow

theorem Apart.inv_step (h : Apart key s) (hstep : s.step collate env event = some s') :
    Inv (fun _ _ ↦ True) s' :=
  h.inv.step (fun _ _ _ _ ↦ trivial) (fun _ _ _ _ _ _ _ ↦ trivial) hstep

/-- A party that has seen a row creates no account. -/
theorem creating_of_row (h : Inv (fun _ _ ↦ True) s) {p : ℕ} {row : Account}
    (hseen : (s.parties p).view.seen = .row row) : (s.parties p).creating = none := by
  by_contra hcreating
  obtain ⟨email, hemail⟩ := Option.ne_none_iff_exists'.mp hcreating
  have habsent := ((h.parties p).creating hemail).1
  rw [hseen] at habsent
  cases habsent

/-- A party saves the e-mail of the row that it has seen, or the one that it creates. -/
theorem Apart.saves (h : Apart key s) {p : ℕ} {account : PlayerAccount}
    {next : ℤ → Dialog (Option Player)}
    (hask : (s.parties p).dialog = .ask (.saveAccount account) next)
    {row : Account} (hrow : account.row = some row) :
    (row.id, row.email) ∈ emails s.db ∨ (row.id = 0 ∧ row.email ∈ (s.parties p).creating) := by
  obtain ⟨hid, hemail, -, -⟩ := row_fields hrow
  have hparty := h.inv.parties p
  unfold Party.OnWay at hparty
  rw [hask] at hparty
  rcases hparty.1 with ⟨hnew, -⟩ | ⟨old, hcopy, -⟩
  · refine .inr ⟨hid.trans hnew.id, ?_⟩
    unfold Party.creating
    rw [hask]
    change account.unsaved = some row.email
    rw [PlayerAccount.unsaved, if_pos hnew.id, hemail]
  · left
    rw [hid, hcopy.id, Option.some.inj (hemail.trans hcopy.email)]
    exact h.seen p old hcopy.seen

/-- What was saved is in the table. -/
theorem Apart.mem_written (h : Apart key s) {p : ℕ} {account : PlayerAccount}
    {next : ℤ → Dialog (Option Player)}
    (hask : (s.parties p).dialog = .ask (.saveAccount account) next)
    {row : Account} (hrow : account.row = some row) :
    ((written s.db row).2, row.email) ∈ emails (written s.db row).1 := by
  rcases h.saves hask hrow with hknown | ⟨hzero, -⟩
  · obtain ⟨hemails, hid⟩ := written_known h.inv.numbered hknown
    rwa [hemails, hid]
  · obtain ⟨hemails, hid⟩ := written_new h.inv.numbered hzero
    rw [hemails, hid]
    exact List.mem_append_right _ (List.mem_singleton.mpr rfl)

/-- What a party has seen after a step. -/
theorem Apart.seen_step (h : Apart key s) (hstep : s.step collate env event = some s') {p : ℕ}
    {row : Account} (hseen : (s'.parties p).view.seen = .row row) :
    (s.parties p).view.seen = .row row ∨ (row.id, row.email) ∈ emails s'.db := by
  have hother : ∀ {q : ℕ} {party : Party} {db : Database}, p ≠ q →
      s' = { s.set q party with db := db } → (s.parties p).view.seen = .row row := by
    rintro q party db hp rfl
    rwa [← System.set_of_ne s party hp]
  have hself : ∀ {party : Party} {db : Database}, s' = { s.set p party with db := db } →
      party.view.seen = .row row := by
    rintro party db rfl
    rwa [← System.set_self s p party]
  have hfound : ∀ {f : Account → Bool} {none : Seen}, none ≠ .row row →
      (s.db.accounts.find? f).elim none .row = .row row → (row.id, row.email) ∈ emails s.db := by
    intro f none hnone hrow
    cases hfind : s.db.accounts.find? f with
    | none =>
        rw [hfind] at hrow
        exact absurd hrow hnone
    | some found =>
        rw [hfind] at hrow
        rw [← Seen.row.inj hrow]
        exact List.mem_map_of_mem (List.mem_of_find?_eq_some hfind)
  rcases step_cases hstep with ⟨q, request, dialog, -, -, hs'⟩ |
    ⟨q, moment, line, player, -, -, hs'⟩ |
      ⟨q, pc, op, next, -, hask, ⟨-, hs'⟩ | ⟨db, ans, hanswer, hs'⟩⟩
  all_goals rcases eq_or_ne p q with rfl | hp
  all_goals first
    | exact .inl (hother hp hs')
    | have hparty := hself hs'
  · cases hparty
  · change (if player.state.anonymous then Seen.nothing else (s.parties p).view.seen) = .row row
      at hparty
    split_ifs at hparty
    exact .inl hparty
  · exact .inl hparty
  · cases op with
    | findPc name => exact .inl hparty
    | saveAccount account =>
        right
        obtain ⟨new, hnew, hsave⟩ := Option.bind_eq_some_iff.mp hanswer
        rw [saveAccount_eq] at hsave
        have hpair := Option.some.inj hsave
        obtain rfl : (written s.db new).1 = db := by rw [hpair]
        obtain rfl : (written s.db new).2 = ans := by rw [hpair]
        rw [next_saveAccount _ hnew] at hparty
        obtain rfl := Seen.row.inj hparty
        rw [hs']
        exact h.mem_written hask hnew
    | loadAccount email =>
        right
        obtain ⟨rfl, rfl⟩ := Prod.mk.inj (Option.some.inj hanswer)
        rw [hs']
        rw [firstAccount_loadAccount] at hparty
        exact hfound Seen.noConfusion hparty
    | loadAccountByConfirm code =>
        right
        obtain ⟨rfl, rfl⟩ := Prod.mk.inj (Option.some.inj hanswer)
        rw [hs']
        rw [firstAccount_loadAccountByConfirm] at hparty
        exact hfound Seen.noConfusion hparty

/-- What a step does to the e-mails of the table: nothing, or it adds the e-mail of a party that
creates no account any more. -/
theorem Apart.emails_step (h : Apart key s) (hstep : s.step collate env event = some s') :
    emails s'.db = emails s.db ∨ ∃ p, ∃ email ∈ (s.parties p).creating,
      (s'.parties p).creating = none ∧ ∃ id, emails s'.db = emails s.db ++ [(id, email)] := by
  rcases step_db hstep with hdb | ⟨p, pc, account, next, row, -, hask, hrow, hdb, hseen⟩
  · rw [hdb]
    exact .inl rfl
  rw [hdb]
  rcases h.saves hask hrow with hknown | ⟨hzero, hcreating⟩
  · exact .inl (written_known h.inv.numbered hknown).1
  · exact .inr ⟨p, row.email, hcreating, creating_of_row (h.inv_step hstep) hseen, s.db.nextAccount,
      (written_new h.inv.numbered hzero).1⟩

theorem Apart.mem_step (h : Apart key s) (hstep : s.step collate env event = some s')
    {owner : ℤ × Text} (howner : owner ∈ emails s.db) : owner ∈ emails s'.db := by
  rcases h.emails_step hstep with hsame | ⟨_, _, _, _, _, hadded⟩
  · rwa [hsame]
  · rw [hadded]
    exact List.mem_append_left _ howner

/-- A party that creates an account after a step did so before, or has just found its e-mail
free. -/
theorem Apart.creating_step (hkey : ∀ a b, key a = key b → collate a = collate b)
    (hguard : ChecksAlone key s event) (h : Apart key s)
    (hstep : s.step collate env event = some s')
    {p : ℕ} {email : Text} (hcreating : (s'.parties p).creating = some email) :
    (s.parties p).creating = some email ∨ (emails s'.db = emails s.db ∧
      (∀ owner ∈ emails s.db, key owner.2 ≠ key email) ∧
      ∀ q ≠ p, ∀ other ∈ (s'.parties q).creating, key other ≠ key email) := by
  have habsent := ((h.inv_step hstep).parties p).creating hcreating
  have hother : ∀ {q : ℕ} {party : Party} {db : Database}, p ≠ q →
      s' = { s.set q party with db := db } → (s.parties p).creating = some email := by
    rintro q party db hp rfl
    rwa [← System.set_of_ne s party hp]
  have hself : ∀ {party : Party} {db : Database}, s' = { s.set p party with db := db } →
      party.creating = some email ∧ party.view.seen = .absent email ∧
        party.view.request ≠ .login := by
    rintro party db rfl
    rw [← System.set_self s p party]
    exact ⟨hcreating, habsent⟩
  rcases step_cases hstep with ⟨q, request, dialog, -, -, hs'⟩ |
    ⟨q, moment, line, player, -, hidle, hs'⟩ |
    ⟨q, pc, op, next, rfl, hask, ⟨-, hs'⟩ | ⟨db, ans, hanswer, hs'⟩⟩
  all_goals rcases eq_or_ne p q with rfl | hp
  all_goals first
    | exact .inl (hother hp hs')
    | obtain ⟨hparty, hseen, hlogin⟩ := hself hs'
  · cases hseen
  · exact .inl (creating_line (fun _ _ _ _ ↦ trivial) (h.inv.parties p) hidle moment line hparty)
  · cases hparty
  · have hasks : (s.parties p).asks = some op := by rw [Party.asks, hask]
    have hsaves := h.inv.parties p
    unfold Party.OnWay at hsaves
    rw [hask] at hsaves
    cases op with
    | findPc name =>
        -- a party that looks for a pc has seen a row
        obtain ⟨row, hrow⟩ := hsaves.1
        rw [show (s.parties p).view.seen = .absent email from hseen] at hrow
        cases hrow
    | saveAccount account =>
        obtain ⟨row, hrow, -⟩ := Option.bind_eq_some_iff.mp hanswer
        rw [next_saveAccount _ hrow] at hseen
        cases hseen
    | loadAccountByConfirm code =>
        change Option.elim ans Seen.nothing Seen.row = .absent email at hseen
        cases ans <;> cases hseen
    | loadAccount asked =>
        obtain ⟨rfl, rfl⟩ := Prod.mk.inj (Option.some.inj hanswer)
        have hnone : firstAccount collate s.db (.loadAccount asked) = none ∧ asked = email := by
          change (firstAccount collate s.db (.loadAccount asked)).elim (.absent asked) Seen.row = _
            at hseen
          cases hfirst : firstAccount collate s.db (.loadAccount asked) with
          | none =>
              rw [hfirst] at hseen
              exact ⟨rfl, Seen.absent.inj hseen⟩
          | some row =>
              rw [hfirst] at hseen
              cases hseen
        obtain ⟨hnone, rfl⟩ := hnone
        rw [firstAccount_loadAccount, List.find?_eq_none] at hnone
        right
        rw [hs']
        refine ⟨rfl, ?_, ?_⟩
        · intro owner howner hsame
          obtain ⟨row, hrow, rfl⟩ := List.mem_map.mp howner
          exact hnone row hrow (decide_eq_true (hkey _ _ hsame))
        · intro q hq other hother
          apply hguard p pc asked rfl hasks hlogin q hq other
          rwa [← System.set_of_ne s _ hq]

/-- A step keeps the e-mails apart. -/
theorem Apart.step (hkey : ∀ a b, key a = key b → collate a = collate b)
    (hguard : ChecksAlone key s event) (h : Apart key s)
    (hstep : s.step collate env event = some s') : Apart key s' := by
  have hcreating := fun p email (hp : (s'.parties p).creating = some email) ↦
    h.creating_step hkey hguard hstep hp
  refine ⟨h.inv_step hstep, ?_, ?_, ?_, ?_⟩
  · rw [distinctEmails_iff]
    have hdistinct := distinctEmails_iff.mp h.distinct
    rcases h.emails_step hstep with hsame | ⟨p, email, hemail, -, id, hadded⟩
    · rwa [hsame]
    · rw [hadded]
      apply List.pairwise_append.mpr
      refine ⟨hdistinct, List.pairwise_singleton _ _, ?_⟩
      intro owner howner new hnew
      rw [List.mem_singleton.mp hnew]
      exact h.free p email hemail owner howner
  · intro p email hemail owner howner
    rcases hcreating p email hemail with hold | ⟨hsame, hfree, -⟩
    · rcases h.emails_step hstep with hsame | ⟨q, other, hother, hnone, id, hadded⟩
      · rw [hsame] at howner
        exact h.free p email hold owner howner
      · rw [hadded] at howner
        rcases List.mem_append.mp howner with howner | hnew
        · exact h.free p email hold owner howner
        · rw [List.mem_singleton.mp hnew]
          apply h.apart p email hold q _ other hother
          rintro rfl
          rw [hnone] at hemail
          cases hemail
    · rw [hsame] at howner
      exact hfree owner howner
  · intro p email hemail q hq other hother
    rcases hcreating p email hemail with hold | ⟨-, -, hapart⟩
    · rcases hcreating q other hother with hold' | ⟨-, -, hapart⟩
      · exact h.apart p email hold q hq other hold'
      · exact (hapart p hq.symm email hemail).symm
    · exact hapart q hq other hother
  · intro p row hrow
    rcases h.seen_step hstep hrow with hold | hmem
    · exact h.mem_step hstep (h.seen p row hold)
    · exact hmem

/-- No two rows ever have the same e-mail. -/
theorem one_account_per_email (hkey : ∀ a b, key a = key b → collate a = collate b)
    (hdb : Numbered db) (hdistinct : DistinctEmails key db)
    (h : ReflTransGen (Guarded collate env (ChecksAlone key)) (System.create db) s) :
    DistinctEmails key s.db := by
  suffices hapart : Apart key s from hapart.distinct
  induction h with
  | refl => exact apart_create hdb hdistinct
  | tail _ hstep ih =>
      obtain ⟨event, hguard, hstep⟩ := hstep
      exact ih.step hkey hguard hstep

theorem checksAlone_of_none {p : ℕ} (h : ∀ q ≠ p, (s.parties q).creating = none)
    (pc : Option Found) : ChecksAlone key s (.call p pc) := by
  intro p' pc' email hevent _ _ q hq other hother
  obtain ⟨rfl, rfl⟩ := Event.call.inj hevent
  rw [h q hq] at hother
  cases hother

/-- A web request registers a second account. -/
theorem one_account_per_email_web : ∃ s : System,
    ReflTransGen (Guarded lowerText plainEnvironment (ChecksAlone lowerText))
      (System.create (oneAccount true [])) s ∧ s.db.accounts.length = 2 ∧
      DistinctEmails lowerText s.db := by
  let step := fun (s : System) (event : Event) ↦ (s.step lowerText plainEnvironment event).getD s
  let s₀ := System.create (oneAccount true [])
  let s₁ := step s₀ (.register 0 0 (some [99, 100, 64, 99, 46, 100, 101]) (some [112]))
  let s₂ := step s₁ (.call 0 none)
  let s₃ := step s₂ (.call 0 none)
  have hguard₀ : ChecksAlone lowerText s₀
      (.register 0 0 (some [99, 100, 64, 99, 46, 100, 101]) (some [112])) := by
    intro p pc email hevent
    cases hevent
  have hother₁ : ∀ q ≠ 0, s₁.parties q = s₀.parties q := fun q hq ↦ System.set_of_ne s₀ _ hq
  have hother₂ : ∀ q ≠ 0, s₂.parties q = s₁.parties q := fun q hq ↦ System.set_of_ne s₁ _ hq
  have hguard₁ : ChecksAlone lowerText s₁ (.call 0 none) := by
    apply checksAlone_of_none
    intro q hq
    rw [hother₁ q hq]
    rfl
  have hguard₂ : ChecksAlone lowerText s₂ (.call 0 none) := by
    apply checksAlone_of_none
    intro q hq
    rw [hother₂ q hq, hother₁ q hq]
    rfl
  have hrun : ReflTransGen (Guarded lowerText plainEnvironment (ChecksAlone lowerText)) s₀ s₃ :=
    ((ReflTransGen.single ⟨_, hguard₀, rfl⟩).tail ⟨_, hguard₁, rfl⟩).tail ⟨_, hguard₂, rfl⟩
  exact ⟨s₃, hrun, rfl, one_account_per_email (fun _ _ heq ↦ heq) (numbered_oneAccount true [])
    (List.pairwise_singleton _ _) hrun⟩

/-- A session asks for an e-mail. -/
def asksFor (p : ℕ) : List Event :=
  [.connect p, typed p [120], typed p someEmail, .call p none]

/-- It goes on to register the e-mail. -/
def goesOn (p : ℕ) : List Event :=
  [typed p [121], typed p [112], typed p [112], typed p [121], .call p none, .call p none]

/-- Two sessions ask for an e-mail before one of them has registered it. -/
theorem two_accounts_per_email : ∃ s : System,
    (System.create ⟨[], [], 1, [], 1, []⟩).run lowerText plainEnvironment
      (asksFor 0 ++ asksFor 1 ++ goesOn 0 ++ goesOn 1) = some s ∧
    DistinctEmails id ⟨[], [], 1, [], 1, []⟩ ∧ ¬ DistinctEmails id s.db := by
  let run := (System.create ⟨[], [], 1, [], 1, []⟩).run lowerText plainEnvironment
    (asksFor 0 ++ asksFor 1 ++ goesOn 0 ++ goesOn 1)
  obtain ⟨s, hrun⟩ := Option.isSome_iff_exists.mp (by decide +kernel : run.isSome = true)
  have hfacts : run.any (fun s ↦ s.db.accounts.map Account.email =
      [someEmail, someEmail]) = true := by
    decide +kernel
  rw [hrun, Option.any_some, decide_eq_true_eq] at hfacts
  refine ⟨s, hrun, List.Pairwise.nil, ?_⟩
  intro hdistinct
  have hpairwise : (s.db.accounts.map Account.email).Pairwise (· ≠ ·) :=
    List.pairwise_map.mpr hdistinct
  rw [hfacts] at hpairwise
  exact absurd hpairwise (by decide)

end Registration

end HavokMud.Login
