import HavokMud.Login.Sessions

/-!
# Menus and prompts

Only confirmed accounts get behind the account menu.  The next line of a player goes to the handler
of the prompt that was shown last, unless the player rerolls its abilities or goes to play.
-/

namespace HavokMud.Login

open Interaction BTree Mysql

/-- The list of players, the creation menu and what it leads to, and the game. -/
def PlayerState.restricted : PlayerState → Bool
  | .showPlayerList | .playing => true
  | state => state.inCreation

section Sessions

variable {env : Environment} {moment : Moment} {past : List Entry} {player player' : Player}
  {line : Option Text} {calls : List Call}

/-! ## Confirmed accounts -/

theorem restricted_of_inCreation {state : PlayerState} (h : state.inCreation = true) :
    state.restricted = true := by
  cases state <;> first | rfl | cases h

theorem restricted_of_inMenu {state : PlayerState} (h : state.inMenu = true) :
    state.restricted = false := by
  cases state <;> first | rfl | cases h

/-- Where a player is restricted to confirmed accounts, its account is confirmed. -/
def Admitted (player : Player) : Prop :=
  player.state.restricted = true →
    ∃ account, player.account = some account ∧ account.confirmed = true

theorem Admitted.edge {arg : Option Text} {player₁ : Player} {newState : PlayerState}
    (h : Admitted player) (hedge : Edge env player arg calls player₁ newState)
    (hentered : Entered player₁ newState player') : Admitted player' := by
  intro hstate'
  rw [hentered.state] at hstate'
  rw [hentered.account]
  cases hedge with
  | menu _ _ _ hnew =>
      rw [restricted_of_inMenu hnew] at hstate'
      cases hstate'
  | admitted _ haccount hconfirmed _ => exact ⟨_, haccount, hconfirmed⟩
  | plays _ _ _ haccount hconfirmed => exact ⟨_, haccount, hconfirmed⟩
  | creates hstate _ _ _ => exact h (restricted_of_inCreation hstate)
  | rerolls hstate _ _ =>
      apply h
      rw [hstate]
      rfl
  | _ => cases hstate'

/-- Only a confirmed account gets to its players, to the creation menu or into the game. -/
theorem only_confirmed_play (h : Session env past player)
    (hstate : player.state.restricted = true) :
    ∃ account, player.account = some account ∧ account.confirmed = true := by
  suffices hadmitted : Admitted player from hadmitted hstate
  clear hstate
  induction h with
  | connected =>
      intro hstate
      cases hstate
  | line h hline ih =>
      rcases machine_cases h.used hline with ⟨rfl, -, -⟩ | ⟨player₁, newState, hedge, -, hentered⟩
      · exact ih
      · exact ih.edge hedge hentered

/-- A player with a confirmed account in a state. -/
def confirmedPlayer (state : PlayerState) : Player :=
  ⟨state, some (.ofRow ⟨1, someEmail, somePasswd, true, true, []⟩), ⟨0, 0, 0, 0⟩, state⟩

/-- A session logs in to a confirmed account and goes to the creation menu. -/
theorem session_creation_menu :
    ∃ past, Session plainEnvironment past (confirmedPlayer .showCreationMenu) := by
  let moment : Moment := ⟨0, false, false⟩
  let player₁ : Player := ⟨.getEmail, none, ⟨0, 0, 0, 0⟩, .getEmail⟩
  have hgreeted : (loginStateMachine plainEnvironment moment .create (some [120])).Returns []
      player₁ := .done _
  have hasked : (loginStateMachine plainEnvironment moment player₁ (some someEmail)).Returns
      [⟨.loadAccount someEmail, some ⟨1, someEmail, somePasswd, true, true, []⟩⟩]
      (confirmedPlayer .getPassword) := .ask (.done _)
  have hentered : (loginStateMachine plainEnvironment moment (confirmedPlayer .getPassword)
      (some [112])).Returns [] (confirmedPlayer .showAccountMenu) := .done _
  have hmenu : (loginStateMachine plainEnvironment moment (confirmedPlayer .showAccountMenu)
      (some [54])).Returns [] (confirmedPlayer .showCreationMenu) := .done _
  exact ⟨_, (((Session.connected.line hgreeted).line hasked).line hentered).line hmenu⟩

/-- The creation menu of a confirmed account. -/
theorem only_confirmed_play_creation_menu : ∃ past player, Session plainEnvironment past player ∧
    player.state = .showCreationMenu ∧
      ∃ account, player.account = some account ∧ account.confirmed = true := by
  obtain ⟨past, hsession⟩ := session_creation_menu
  exact ⟨past, _, hsession, rfl, only_confirmed_play hsession rfl⟩

/-! ## Prompts -/

variable (env) in
/-- The next line goes to the handler of the prompt that was shown last. -/
structure InStep (player : Player) : Prop where
  shown : player.state = player.shown
  handled : player.state ≠ .disconnect →
    ∀ moment arg, (handler env moment player arg player.state).isSome = true

/-- The reroll is chosen in the creation menu, or a confirmed account goes to play. -/
def Strays (player : Player) (line : Option Text) : Prop :=
  ∃ arg, skipSpaces line = some arg ∧
    ((player.state = .showCreationMenu ∧ firstLower arg = 114) ∨
      (player.state = .showAccountMenu ∧ firstLower arg = 55 ∧
        ∃ account, player.account = some account ∧ account.confirmed = true))

theorem prompt_eq {newState shown : PlayerState} (hused : newState.used = true)
    (hinitial : newState ≠ .initial) (hreroll : newState ≠ .rerollAbilities)
    (hplaying : newState ≠ .playing) : newState.prompt shown = newState := by
  cases newState <;> first | rfl | contradiction

theorem isSome_handler {arg : Option Text} (hused : player.state.used = true)
    (hdisconnect : player.state ≠ .disconnect) (hplaying : player.state ≠ .playing) :
    (handler env moment player arg player.state).isSome = true := by
  cases hstate : player.state <;> rw [hstate] at hused hdisconnect hplaying <;> first
    | rfl
    | contradiction

/-- The prompt that a session sees is that of its state, if it neither rerolls nor plays. -/
theorem Session.shown (h : Session env past player) (hreroll : player.state ≠ .rerollAbilities)
    (hplaying : player.state ≠ .playing) : player.state = player.shown := by
  induction h with
  | connected => rfl
  | line h hline ih =>
      rcases machine_cases h.used hline with ⟨rfl, -, -⟩ | ⟨player₁, newState, hedge, hne, hentered⟩
      · exact ih hreroll hplaying
      · have hinitial : newState ≠ .initial := by
          rintro rfl
          cases hedge with
          | menu _ _ _ hnew => cases hnew
          | admitted _ _ _ hnew => rcases hnew with hnew | hnew <;> cases hnew
          | creates _ _ hnew _ => cases hnew
        rw [hentered.state] at hreroll hplaying ⊢
        rw [hentered.shown, prompt_eq (hedge.used hne) hinitial hreroll hplaying]

theorem strays_of_edge {newState : PlayerState}
    (h : Edge env player (skipSpaces line) calls player' newState)
    (hnew : newState = .rerollAbilities ∨ newState = .playing) : Strays player line := by
  cases h with
  | menu _ _ _ hmenu => rcases hnew with rfl | rfl <;> cases hmenu
  | admitted _ _ _ hlist => rcases hnew with rfl | rfl <;> rcases hlist with h | h <;> cases h
  | creates _ _ hcreation hne =>
      rcases hnew with rfl | rfl
      · exact absurd rfl hne
      · cases hcreation
  | plays hstate harg hline haccount hconfirmed =>
      exact ⟨_, harg, .inr ⟨hstate, hline, _, haccount, hconfirmed⟩⟩
  | rerolls hstate harg hline => exact ⟨_, harg, .inl ⟨hstate, hline⟩⟩
  | _ => rcases hnew with hnew | hnew <;> cases hnew

/-- A line that is answered with a state. -/
theorem entered_of_handler {newState : PlayerState} (hne : newState ≠ .noChange)
    (hresend : newState ≠ .resendConfirmEmail)
    (hhandler : handler env moment player (skipSpaces line) player.state =
      some (pure (player, newState)))
    (h : (loginStateMachine env moment player line).Returns calls player') :
    Entered player newState player' := by
  unfold loginStateMachine at h
  rw [hhandler] at h
  change (if newState = .noChange then pure player
    else enterState env moment.now player newState).Returns calls player' at h
  rw [if_neg hne] at h
  exact (enterState_cases hresend h).2

/-- Where a line takes a player that strays. -/
theorem Strays.entered (h : Strays player line)
    (hline : (loginStateMachine env moment player line).Returns calls player') :
    Entered player .rerollAbilities player' ∨ Entered player .playing player' := by
  obtain ⟨arg, harg, ⟨hstate, hreroll⟩ | ⟨hstate, hplay, account, haccount, hconfirmed⟩⟩ := h
  · left
    apply entered_of_handler PlayerState.noConfusion PlayerState.noConfusion _ hline
    rw [hstate, harg]
    change some (doShowCreationMenu player (some arg)) = _
    unfold doShowCreationMenu
    dsimp only
    rw [hreroll]
    rfl
  · right
    apply entered_of_handler PlayerState.noConfusion PlayerState.noConfusion _ hline
    rw [hstate, harg]
    change some (doShowAccountMenu env moment player (some arg)) = _
    unfold doShowAccountMenu
    dsimp only
    rw [hplay]
    change some (ifConfirmed player .playing) = _
    unfold ifConfirmed withAccount
    rw [haccount]
    dsimp only
    rw [if_pos hconfirmed]

/-- The next line goes to the handler of the prompt, if the player does not stray, and only then. -/
theorem prompt_and_handler_agree_iff (h : Session env past player)
    (hline : (loginStateMachine env moment player line).Returns calls player') :
    InStep env player' ↔ ¬ Strays player line := by
  have hsession := h.line hline
  constructor
  · rintro ⟨hshown, hhandled⟩ hstrays
    rcases hstrays.entered hline with hentered | hentered
    · rw [hentered.state, hentered.shown] at hshown
      cases hshown
    · have hsome := hhandled (by rw [hentered.state]; exact PlayerState.noConfusion) moment none
      rw [hentered.state] at hsome
      cases hsome
  · intro hstrays
    have hstate : player'.state ≠ .rerollAbilities ∧ player'.state ≠ .playing := by
      rcases machine_cases h.used hline with ⟨rfl, -, hrepeats⟩ |
        ⟨player₁, newState, hedge, -, hentered⟩
      · constructor <;> intro hstate <;> rw [hstate] at hrepeats <;> cases hrepeats
      · rw [hentered.state]
        exact ⟨fun hnew ↦ hstrays (strays_of_edge hedge (.inl hnew)),
          fun hnew ↦ hstrays (strays_of_edge hedge (.inr hnew))⟩
    refine ⟨hsession.shown hstate.1 hstate.2, ?_⟩
    intro hdisconnect moment arg
    exact isSome_handler hsession.used hdisconnect hstate.2

/-- The name is chosen in the creation menu. -/
theorem prompt_and_handler_agree_name : ∃ past player player',
    Session plainEnvironment past player ∧
      (loginStateMachine plainEnvironment ⟨0, false, false⟩ player (some [49])).Returns [] player' ∧
      ¬ Strays player (some [49]) ∧ InStep plainEnvironment player' := by
  obtain ⟨past, hsession⟩ := session_creation_menu
  have hline : (loginStateMachine plainEnvironment ⟨0, false, false⟩
      (confirmedPlayer .showCreationMenu) (some [49])).Returns []
      (confirmedPlayer .chooseName) := .done _
  have hstrays : ¬ Strays (confirmedPlayer .showCreationMenu) (some [49]) := by
    rintro ⟨arg, harg, ⟨-, hreroll⟩ | ⟨hstate, -⟩⟩
    · obtain rfl : [49] = arg := Option.some.inj harg
      exact absurd hreroll (by decide)
    · cases hstate
  exact ⟨past, _, _, hsession, hline, hstrays,
    (prompt_and_handler_agree_iff hsession hline).mpr hstrays⟩

/-- The abilities are rerolled: the creation menu is shown, and its next line is not read by it. -/
theorem reroll_loses_prompt : ∃ past player player', Session plainEnvironment past player ∧
    (loginStateMachine plainEnvironment ⟨0, false, false⟩ player (some [114])).Returns [] player' ∧
      player'.state = .rerollAbilities ∧ player'.shown = .showCreationMenu ∧
      ¬ InStep plainEnvironment player' := by
  obtain ⟨past, hsession⟩ := session_creation_menu
  have hline : (loginStateMachine plainEnvironment ⟨0, false, false⟩
      (confirmedPlayer .showCreationMenu) (some [114])).Returns []
      { confirmedPlayer .showCreationMenu with state := .rerollAbilities } := .done _
  refine ⟨past, _, _, hsession, hline, rfl, rfl, ?_⟩
  intro hstep
  exact PlayerState.noConfusion hstep.shown

end Sessions

end HavokMud.Login
