import HavokMud.Pipeline.Threads

/-!
# What is on its way

For each player there is first the new connection on its way to `InputThread`, then data, and last
the removal.  What `InputThread` makes of it goes to `LoginThread` and is neither lost nor put into
another order.
-/

namespace HavokMud.Pipeline

open Buffer Queue Input Interaction

section Ways

variable {π : Type}

/-- What `ConnectionThread` has still to announce. -/
def ConnStage.owed : ConnStage π → List (ConnInputItem π)
  | selects => []
  | accepted p => [⟨.newConnect, p⟩]
  | removes p => [⟨.deleteConnect, p⟩]
  | sends item => [item]

/-- What `LoginThread` has still to announce. -/
def LoginStage.owed : LoginStage π → List (ConnInputItem π)
  | removes item | sends item => [⟨.deleteConnect, item.player⟩]
  | _ => []

/-- What `LoginThread` has taken and not yet handled. -/
def LoginStage.items : LoginStage π → List (InputStateItem π)
  | waits => []
  | handles item | closes item | removes item | sends item => [item]

/-- All that is on its way to `InputThread`. -/
def Scene.announced (v : Scene π) : List (ConnInputItem π) :=
  v.connectInputQ ++ (v.conn.owed ++ v.login.owed)

/-- All that is on its way to `LoginThread`, with what it is about to handle. -/
def Scene.pending (v : Scene π) : List (InputStateItem π) :=
  v.login.items ++ (v.inputLoginQ ++ v.sending)

/-- All that `InputThread` has made so far. -/
def Scene.made (v : Scene π) : List (InputStateItem π) :=
  v.done ++ v.pending

theorem ConnStage.owed_of_outgoing {conn : ConnStage π} {item : ConnInputItem π}
    (h : conn.outgoing = some item) : conn.owed = [item] := by
  cases conn with
  | selects | removes _ => cases h
  | accepted p | sends item =>
      obtain rfl := Option.some.inj h
      rfl

theorem LoginStage.owed_of_not_locks {login : LoginStage π} (h : login.locks = false) :
    login.owed = [] := by
  cases login with
  | waits | handles _ | closes _ => rfl
  | removes _ | sends _ => cases h

theorem Scene.made_of_sending {v : Scene π} (hsending : v.sending = []) :
    v.made = v.done ++ (v.login.items ++ v.inputLoginQ) := by
  unfold Scene.made Scene.pending
  rw [hsending, List.append_nil]

variable [DecidableEq π]

/-- What was announced of a player, in order. -/
def typesOf (items : List (ConnInputItem π)) (p : π) : List ConnInputType :=
  (items.filter fun item ↦ item.player = p).map ConnInputItem.type

/-- The items of a player, in order. -/
def itemsOf (items : List (InputStateItem π)) (p : π) : List (InputStateItem π) :=
  items.filter fun item ↦ item.player = p

/-- What is on its way for a player, of whom data was read so many times. -/
def expected (player : PlayerStruct) (reads : ℕ) : List ConnInputType :=
  if player.freed then []
  else (if player.handled then [] else [.newConnect]) ++
    (List.replicate reads .inputAvail ++
      if player.link.buffer = none then [.deleteConnect] else [])

/-- What holds between the announcements and the players, whatever the threads do. -/
structure Scene.Orderly (v : Scene π) : Prop where
  unknown : ∀ p, v.players p = none → typesOf v.announced p = [] ∧ itemsOf v.made p = []
  known : ∀ p player, v.players p = some player →
    ∃ reads, typesOf v.announced p = expected player reads
  destroyed : ∀ p player, v.players p = some player → player.freed = true →
    player.link.buffer = none
  silent : ∀ p player, v.players p = some player → player.handled = false →
    itemsOf v.made p = []
  locks : v.conn.locks = false ∨ v.login.locks = false

/-! ## Lists -/

@[simp]
theorem typesOf_nil (p : π) : typesOf [] p = [] :=
  rfl

theorem typesOf_cons (item : ConnInputItem π) (items : List (ConnInputItem π)) (p : π) :
    typesOf (item :: items) p =
      if item.player = p then item.type :: typesOf items p else typesOf items p := by
  unfold typesOf
  rw [List.filter_cons]
  split_ifs with h₁ h₂ h₂
  · rfl
  · exact absurd (of_decide_eq_true h₁) h₂
  · exact absurd (decide_eq_true h₂) h₁
  · rfl

@[simp]
theorem typesOf_append (items items' : List (ConnInputItem π)) (p : π) :
    typesOf (items ++ items') p = typesOf items p ++ typesOf items' p := by
  unfold typesOf
  rw [List.filter_append, List.map_append]

theorem typesOf_cons_self (type : ConnInputType) (items : List (ConnInputItem π)) (p : π) :
    typesOf (⟨type, p⟩ :: items) p = type :: typesOf items p :=
  (typesOf_cons _ _ _).trans (if_pos rfl)

theorem typesOf_cons_of_ne {item : ConnInputItem π} {p : π} (hne : item.player ≠ p)
    (items : List (ConnInputItem π)) : typesOf (item :: items) p = typesOf items p :=
  (typesOf_cons _ _ _).trans (if_neg hne)

@[simp]
theorem itemsOf_append (items items' : List (InputStateItem π)) (p : π) :
    itemsOf (items ++ items') p = itemsOf items p ++ itemsOf items' p :=
  List.filter_append _ _

theorem itemsOf_eq_nil {items : List (InputStateItem π)} {p : π} :
    itemsOf items p = [] ↔ ∀ item ∈ items, item.player ≠ p := by
  unfold itemsOf
  rw [List.filter_eq_nil_iff]
  simp only [decide_eq_true_eq]

theorem itemsOf_eq_self {items : List (InputStateItem π)} {p : π}
    (hitems : ∀ item ∈ items, item.player = p) : itemsOf items p = items :=
  List.filter_eq_self.mpr fun item hmem ↦ decide_eq_true (hitems item hmem)

/-! ## Single moves -/

variable {v v' : Scene π} {event : Event π}

theorem Scene.ConnMoves.made (h : v.ConnMoves event v') : v'.made = v.made := by
  cases h <;> rfl

theorem Scene.LoginMoves.made (h : v.LoginMoves event v') : v'.made = v.made := by
  change _ = v.done ++ (v.login.items ++ (v.inputLoginQ ++ v.sending))
  cases h with
  | take hlogin hqueue =>
      rw [hlogin, hqueue]
      rfl
  | handle hlogin =>
      rw [hlogin]
      exact List.append_assoc _ _ _
  | close hlogin | removed hlogin _ _ | remove hlogin _ _ _ | mark hlogin _ | send hlogin =>
      rw [hlogin]
      rfl

/-- One player after an update of another or the same. -/
theorem update_eq_some {players : π → Option PlayerStruct} {p q : π}
    {player other : PlayerStruct} (h : Function.update players p (some player) q = some other) :
    q = p ∧ other = player ∨ q ≠ p ∧ players q = some other := by
  rcases eq_or_ne q p with rfl | hne
  · rw [Function.update_self] at h
    exact .inl ⟨rfl, (Option.some.inj h).symm⟩
  · rw [Function.update_of_ne hne] at h
    exact .inr ⟨hne, h⟩

theorem update_eq_none {players : π → Option PlayerStruct} {p q : π} {player : PlayerStruct}
    (h : Function.update players p (some player) q = none) : q ≠ p ∧ players q = none := by
  rcases eq_or_ne q p with rfl | hne
  · rw [Function.update_self] at h
    cases h
  · rw [Function.update_of_ne hne] at h
    exact ⟨hne, h⟩

omit [DecidableEq π] in
/-- What one read does: there was no room, or the connection has ended, or there are new data. -/
theorem readable_cases {link link' : Link} {buffer : BufferObject} {result : ReadResult}
    (h : link.readable buffer result = some link') (p : π) :
    (afterRead p buffer result = .selects ∧ link' = link) ∨
      (afterRead p buffer result = .removes p ∧ link' = { link with buffer := none }) ∨
      (afterRead p buffer result = .sends ⟨.inputAvail, p⟩ ∧ link'.buffer ≠ none ∧
        link'.flush = link.flush) := by
  unfold afterRead
  by_cases hzero : bufferAvailWrite buffer = 0
  · rw [if_pos hzero]
    refine .inl ⟨rfl, ?_⟩
    unfold Link.readable at h
    cases result with
    | data _ | eof | error =>
        dsimp only at h
        rw [if_pos hzero] at h
        exact (Option.some.inj h).symm
  · rw [if_neg hzero]
    refine .inr ?_
    unfold Link.readable at h
    cases result with
    | data bytes =>
        dsimp only at h
        rw [if_neg hzero] at h
        split at h
        · cases h
        split_ifs at h
        obtain rfl := Option.some.inj h
        exact .inr ⟨rfl, nofun, rfl⟩
    | eof =>
        dsimp only at h
        rw [if_neg hzero] at h
        exact .inl ⟨rfl, (Option.some.inj h).symm⟩
    | error =>
        dsimp only at h
        rw [if_neg hzero] at h
        obtain rfl := Option.some.inj h
        exact .inr ⟨rfl, nofun, rfl⟩

theorem input_buffer (link : Link) : link.input.buffer = none ↔ link.buffer = none := by
  unfold Link.input
  split_ifs
  · rfl
  · cases hbuffer : link.buffer with
    | none => exact iff_of_true rfl rfl
    | some buffer =>
        dsimp only
        cases takeInput buffer with
        | none => rw [hbuffer]
        | some taken =>
            dsimp only
            split_ifs <;> exact ⟨nofun, nofun⟩

/-! ## Moves keep the order -/

theorem expected_open (player : PlayerStruct) (hfreed : player.freed = false)
    (hbuffer : player.link.buffer ≠ none) (reads : ℕ) : expected player reads =
      (if player.handled then [] else [.newConnect]) ++ List.replicate reads .inputAvail := by
  unfold expected
  rw [if_neg (Bool.eq_false_iff.mp hfreed), if_neg hbuffer, List.append_nil]

theorem expected_removed (player : PlayerStruct) (hfreed : player.freed = false)
    (hbuffer : player.link.buffer = none) (reads : ℕ) : expected player reads =
      (if player.handled then [] else [.newConnect]) ++ List.replicate reads .inputAvail ++
        [.deleteConnect] := by
  unfold expected
  rw [if_neg (Bool.eq_false_iff.mp hfreed), if_pos hbuffer, List.append_assoc]

/-- What the first announcement of a player may be, and what is left then. -/
theorem expected_eq_cons {player : PlayerStruct} {reads : ℕ} {type : ConnInputType}
    {rest : List ConnInputType} (h : expected player reads = type :: rest) :
    player.freed = false ∧
      ((type = .newConnect ∧ player.handled = false ∧
          rest = expected { player with handled := true } reads) ∨
        (type = .inputAvail ∧ player.handled = true ∧ ∃ n, rest = expected player n) ∨
        (type = .deleteConnect ∧ player.handled = true ∧ player.link.buffer = none ∧
          rest = [])) := by
  unfold expected at h
  split_ifs at h with hfreed hhandled hbuffer hbuffer
  · have hfreed := Bool.eq_false_iff.mpr hfreed
    refine ⟨hfreed, .inr ?_⟩
    cases reads with
    | zero =>
        obtain ⟨rfl, rfl⟩ := List.cons.inj h
        exact .inr ⟨rfl, hhandled, hbuffer, rfl⟩
    | succ n =>
        obtain ⟨rfl, rfl⟩ := List.cons.inj h
        refine .inl ⟨rfl, hhandled, n, ?_⟩
        rw [expected_removed player hfreed hbuffer, if_pos hhandled]
        rfl
  · have hfreed := Bool.eq_false_iff.mpr hfreed
    refine ⟨hfreed, .inr (.inl ?_)⟩
    cases reads with
    | zero => cases h
    | succ n =>
        obtain ⟨rfl, rfl⟩ := List.cons.inj h
        refine ⟨rfl, hhandled, n, ?_⟩
        rw [expected_open player hfreed hbuffer, if_pos hhandled]
        exact List.append_nil _
  all_goals
    have hfreed := Bool.eq_false_iff.mpr hfreed
    obtain ⟨rfl, rfl⟩ := List.cons.inj h
    refine ⟨hfreed, .inl ⟨rfl, Bool.eq_false_iff.mpr hhandled, ?_⟩⟩
  · exact (expected_removed { player with handled := true } hfreed hbuffer _).symm
  · rw [expected_open { player with handled := true } hfreed hbuffer]
    exact List.append_nil _

/-- One player is changed, and nothing for the others. -/
theorem Scene.Orderly.update (h : v.Orderly) {p : π} {player : PlayerStruct}
    (hplayers : v'.players = Function.update v.players p (some player))
    (hothers : ∀ q, q ≠ p → typesOf v'.announced q = typesOf v.announced q ∧
      itemsOf v'.made q = itemsOf v.made q)
    (hknown : ∃ reads, typesOf v'.announced p = expected player reads)
    (hdestroyed : player.freed = true → player.link.buffer = none)
    (hsilent : player.handled = false → itemsOf v'.made p = [])
    (hlocks : v'.conn.locks = false ∨ v'.login.locks = false) : v'.Orderly where
  unknown q hq := by
    rw [hplayers] at hq
    obtain ⟨hne, hq⟩ := update_eq_none hq
    obtain ⟨htypes, hitems⟩ := hothers q hne
    rw [htypes, hitems]
    exact h.unknown q hq
  known q other hq := by
    rw [hplayers] at hq
    rcases update_eq_some hq with ⟨rfl, rfl⟩ | ⟨hne, hq⟩
    · exact hknown
    · rw [(hothers q hne).1]
      exact h.known q other hq
  destroyed q other hq := by
    rw [hplayers] at hq
    rcases update_eq_some hq with ⟨rfl, rfl⟩ | ⟨hne, hq⟩
    · exact hdestroyed
    · exact h.destroyed q other hq
  silent q other hq := by
    rw [hplayers] at hq
    rcases update_eq_some hq with ⟨rfl, rfl⟩ | ⟨hne, hq⟩
    · exact hsilent
    · rw [(hothers q hne).2]
      exact h.silent q other hq
  locks := hlocks

/-- No player is changed. -/
theorem Scene.Orderly.congr (h : v.Orderly) (hplayers : v'.players = v.players)
    (hannounced : ∀ q, typesOf v'.announced q = typesOf v.announced q)
    (hmade : v'.made = v.made) (hlocks : v'.conn.locks = false ∨ v'.login.locks = false) :
    v'.Orderly where
  unknown q hq := by
    rw [hannounced, hmade]
    exact h.unknown q (hplayers ▸ hq)
  known q other hq := by
    rw [hannounced]
    exact h.known q other (hplayers ▸ hq)
  destroyed q other hq := h.destroyed q other (hplayers ▸ hq)
  silent q other hq := by
    rw [hmade]
    exact h.silent q other (hplayers ▸ hq)
  locks := hlocks

theorem typesOf_announced (v : Scene π) (q : π) : typesOf v.announced q =
    typesOf v.connectInputQ q ++ (typesOf v.conn.owed q ++ typesOf v.login.owed q) := by
  unfold Scene.announced
  rw [typesOf_append, typesOf_append]

/-- `ConnectionThread` comes to announce something of one player, while nobody else has the lock of
the list. -/
theorem typesOf_announced_conn (v' : Scene π) (hconn : v.conn = .selects)
    (hlogin : v.login.locks = false)
    (hqueue : v'.connectInputQ = v.connectInputQ) (hlogin' : v'.login = v.login) (q : π) :
    typesOf v'.announced q = typesOf v.announced q ++ typesOf v'.conn.owed q := by
  have hnothing : v.login.owed = [] := LoginStage.owed_of_not_locks hlogin
  rw [typesOf_announced, typesOf_announced, hqueue, hlogin', hnothing, hconn]
  simp [ConnStage.owed]

theorem Scene.Orderly.freed_of_buffer (h : v.Orderly) {p : π} {player : PlayerStruct}
    (hplayer : v.players p = some player) (hbuffer : player.link.buffer ≠ none) :
    player.freed = false :=
  Bool.eq_false_iff.mpr fun hfreed ↦ hbuffer (h.destroyed p player hplayer hfreed)

/-- The announcement of a removal. -/
theorem expected_destroy {player : PlayerStruct} (hfreed : player.freed = false)
    (hbuffer : player.link.buffer ≠ none) (reads : ℕ) :
    expected player reads ++ [.deleteConnect] = expected player.destroy reads := by
  rw [expected_open player hfreed hbuffer, expected_removed player.destroy hfreed rfl]
  rfl

theorem Scene.Orderly.conn (h : v.Orderly) (hmoves : v.ConnMoves event v') : v'.Orderly := by
  have hmade := hmoves.made
  cases hmoves with
  | @accept p hconn _ hnew =>
      have hnone := (h.unknown p hnew).1
      rw [typesOf_announced, List.append_eq_nil_iff, List.append_eq_nil_iff] at hnone
      obtain ⟨hqueue, -, hlogin⟩ := hnone
      refine h.update rfl (fun q hne ↦ ⟨?_, congrArg (itemsOf · q) hmade⟩) ⟨0, ?_⟩ nofun
        (fun _ ↦ hmade ▸ (h.unknown p hnew).2) (.inl rfl)
      · rw [typesOf_announced, typesOf_announced, hconn]
        change _ ++ (typesOf [⟨.newConnect, p⟩] q ++ _) = _
        rw [typesOf_cons_of_ne hne.symm]
        rfl
      · rw [typesOf_announced]
        change typesOf v.connectInputQ p ++ (typesOf [⟨.newConnect, p⟩] p ++
          typesOf v.login.owed p) = _
        rw [hqueue, hlogin, typesOf_cons_self]
        rfl
  | @readable p player buffer result link hconn hlogin hplayer hbuffer hread =>
      have hopen : player.link.buffer ≠ none := by
        rw [hbuffer]
        nofun
      have hfreed := h.freed_of_buffer hplayer hopen
      obtain ⟨reads, hreads⟩ := h.known p player hplayer
      have hannounced := typesOf_announced_conn { v.set p { player with link := link } with
        conn := afterRead p buffer result } hconn hlogin rfl rfl
      refine h.update rfl (fun q hne ↦ ⟨?_, congrArg (itemsOf · q) hmade⟩) ?_ ?_
        (fun hhandled ↦ hmade ▸ h.silent p player hplayer hhandled) (.inr hlogin)
      · rw [hannounced]
        rcases readable_cases hread p with ⟨hafter, -⟩ | ⟨hafter, -⟩ | ⟨hafter, -⟩
        all_goals
          dsimp only
          rw [hafter]
        · exact List.append_nil _
        · exact (congrArg (_ ++ ·) (typesOf_cons_of_ne hne.symm [])).trans (List.append_nil _)
        · exact (congrArg (_ ++ ·) (typesOf_cons_of_ne hne.symm [])).trans (List.append_nil _)
      · rw [hannounced, hreads]
        rcases readable_cases hread p with ⟨hafter, rfl⟩ | ⟨hafter, rfl⟩ | ⟨hafter, hbuffer', -⟩
        all_goals
          dsimp only
          rw [hafter]
        · exact ⟨reads, List.append_nil _⟩
        · exact ⟨reads, (congrArg (_ ++ ·) (typesOf_cons_self .deleteConnect [] p)).trans
            (expected_destroy hfreed hopen reads)⟩
        · refine ⟨reads + 1, (congrArg (_ ++ ·) (typesOf_cons_self .inputAvail [] p)).trans ?_⟩
          rw [expected_open player hfreed hopen, expected_open { player with link := link } hfreed
            hbuffer', List.replicate_succ', typesOf_nil, List.append_assoc]
      · exact fun hfreed' ↦ absurd hfreed' (Bool.eq_false_iff.mp hfreed)
  | @except p player hconn hlogin hplayer hbuffer =>
      have hfreed := h.freed_of_buffer hplayer hbuffer
      obtain ⟨reads, hreads⟩ := h.known p player hplayer
      have hannounced := typesOf_announced_conn { v.set p player.destroy with
        conn := .removes p } hconn hlogin rfl rfl
      refine h.update rfl (fun q hne ↦ ⟨?_, congrArg (itemsOf · q) hmade⟩) ⟨reads, ?_⟩
        (fun _ ↦ rfl) (fun hhandled ↦ hmade ▸ h.silent p player hplayer hhandled) (.inr hlogin)
      · rw [hannounced]
        exact (congrArg (_ ++ ·) (typesOf_cons_of_ne hne.symm [])).trans (List.append_nil _)
      · rw [hannounced, hreads, ← expected_destroy hfreed hbuffer]
        exact congrArg (_ ++ ·) (typesOf_cons_self .deleteConnect [] p)
  | @mark p player hconn hplayer =>
      have hannounced : ∀ q, typesOf (Scene.announced { v.set p player.mark with
          conn := .sends ⟨.deleteConnect, p⟩ }) q = typesOf v.announced q := fun q ↦ by
        rw [typesOf_announced, typesOf_announced, hconn]
        rfl
      have hlogin : v.login.locks = false := h.locks.resolve_left (by rw [hconn]; nofun)
      obtain ⟨reads, hreads⟩ := h.known p player hplayer
      exact h.update rfl (fun q _ ↦ ⟨hannounced q, congrArg (itemsOf · q) hmade⟩)
        ⟨reads, (hannounced p).trans hreads⟩ (h.destroyed p player hplayer)
        (fun hhandled ↦ hmade ▸ h.silent p player hplayer hhandled) (.inr hlogin)
  | @send item hconn =>
      refine h.congr rfl (fun q ↦ ?_) hmade (.inl rfl)
      rw [typesOf_announced, typesOf_announced, ConnStage.owed_of_outgoing hconn]
      dsimp only
      rw [typesOf_append, List.append_assoc]
      rfl

/-- `InputThread` takes an item of another player from the front of its queue. -/
theorem typesOf_announced_others {item : ConnInputItem π} {rest : List (ConnInputItem π)} {q : π}
    (hqueue : v.connectInputQ = item :: rest) (hqueue' : v'.connectInputQ = rest)
    (hconn : v'.conn = v.conn) (hlogin : v'.login = v.login) (hne : q ≠ item.player) :
    typesOf v'.announced q = typesOf v.announced q := by
  rw [typesOf_announced, typesOf_announced, hqueue, hqueue', hconn, hlogin,
    typesOf_cons_of_ne hne.symm]

/-- What is known of a player whose announcement is taken. -/
theorem Scene.Orderly.taken (h : v.Orderly) {type : ConnInputType} {p : π}
    {rest : List (ConnInputItem π)} (hqueue : v.connectInputQ = ⟨type, p⟩ :: rest)
    {player : PlayerStruct} (hplayer : v.players p = some player) :
    player.freed = false ∧
      ((type = .newConnect ∧ player.handled = false ∧ ∃ reads,
          typesOf (rest ++ (v.conn.owed ++ v.login.owed)) p =
            expected { player with handled := true } reads) ∨
        (type = .inputAvail ∧ player.handled = true ∧ ∃ reads,
          typesOf (rest ++ (v.conn.owed ++ v.login.owed)) p = expected player reads) ∨
        (type = .deleteConnect ∧ player.handled = true ∧ player.link.buffer = none ∧
          typesOf (rest ++ (v.conn.owed ++ v.login.owed)) p = [])) := by
  obtain ⟨reads, hreads⟩ := h.known p player hplayer
  unfold Scene.announced at hreads
  rw [hqueue, List.cons_append, typesOf_cons_self] at hreads
  obtain ⟨hfreed, ⟨htype, hhandled, hrest⟩ | ⟨htype, hhandled, n, hrest⟩ |
    ⟨htype, hhandled, hbuffer, hrest⟩⟩ := expected_eq_cons hreads.symm
  · exact ⟨hfreed, .inl ⟨htype, hhandled, reads, hrest⟩⟩
  · exact ⟨hfreed, .inr (.inl ⟨htype, hhandled, n, hrest⟩)⟩
  · exact ⟨hfreed, .inr (.inr ⟨htype, hhandled, hbuffer, hrest⟩)⟩

theorem inputAvail_kept (before after : List UInt8) (player : PlayerStruct) :
    (player.inputAvail before after).1.freed = player.freed ∧
      (player.inputAvail before after).1.handled = player.handled ∧
      (player.inputAvail before after).1.link = player.link.input := by
  unfold PlayerStruct.inputAvail
  cases player.link.buffer with
  | none => exact ⟨rfl, rfl, rfl⟩
  | some buffer => exact ⟨rfl, rfl, rfl⟩

theorem expected_congr {player player' : PlayerStruct} (hfreed : player'.freed = player.freed)
    (hhandled : player'.handled = player.handled)
    (hbuffer : player'.link.buffer = none ↔ player.link.buffer = none) (reads : ℕ) :
    expected player' reads = expected player reads := by
  unfold expected
  rw [hfreed, hhandled]
  simp only [hbuffer]

/-- `InputThread` makes something when it takes an item. -/
theorem itemsOf_made_taken {q : π} (hsending : v.sending = []) (hdone : v'.done = v.done)
    (hlogin : v'.login = v.login) (hqueue : v'.inputLoginQ = v.inputLoginQ) :
    itemsOf v'.made q = itemsOf v.made q ++ itemsOf v'.sending q := by
  rw [Scene.made_of_sending hsending]
  unfold Scene.made Scene.pending
  rw [hdone, hlogin, hqueue]
  simp only [itemsOf_append, List.append_assoc]

theorem itemsOf_made_others {q : π} (hsending : v.sending = []) (hdone : v'.done = v.done)
    (hlogin : v'.login = v.login) (hqueue : v'.inputLoginQ = v.inputLoginQ)
    (hothers : ∀ item ∈ v'.sending, item.player ≠ q) : itemsOf v'.made q = itemsOf v.made q := by
  rw [itemsOf_made_taken hsending hdone hlogin hqueue, itemsOf_eq_nil.mpr hothers, List.append_nil]

theorem Scene.Orderly.input (h : v.Orderly) (hmoves : v.InputMoves event v') : v'.Orderly := by
  cases hmoves with
  | @freed before after item rest player hsending hqueue hplayer hfreed =>
      have hnot := (h.taken hqueue hplayer).1
      rw [hfreed] at hnot
      cases hnot
  | @newConnect before after p rest player hsending hqueue hplayer hfreed =>
      obtain ⟨-, ⟨-, -, reads, hreads⟩ | ⟨htype, -⟩ | ⟨htype, -⟩⟩ := h.taken hqueue hplayer
      · refine h.update rfl (fun q hne ↦ ⟨?_, ?_⟩) ⟨reads, hreads⟩
          (fun hfreed' ↦ absurd hfreed' (Bool.eq_false_iff.mp hfreed)) nofun h.locks
        · exact typesOf_announced_others hqueue rfl rfl rfl hne
        · refine itemsOf_made_others hsending rfl rfl rfl ?_
          intro item hitem
          obtain rfl := List.mem_singleton.mp hitem
          exact hne.symm
      · cases htype
      · cases htype
  | @inputAvail before after p rest player hsending hqueue hplayer hfreed =>
      obtain ⟨-, ⟨htype, -⟩ | ⟨-, hhandled, reads, hreads⟩ | ⟨htype, -⟩⟩ := h.taken hqueue hplayer
      · cases htype
      · obtain ⟨hfreed', hhandled', hlink'⟩ := inputAvail_kept before after player
        refine h.update rfl (fun q hne ↦ ⟨?_, ?_⟩) ⟨reads, hreads.trans ?_⟩ ?_ ?_ h.locks
        · exact typesOf_announced_others hqueue rfl rfl rfl hne
        · refine itemsOf_made_others hsending rfl rfl rfl ?_
          intro item hitem
          obtain ⟨line, -, rfl⟩ := List.mem_map.mp hitem
          exact hne.symm
        · refine (expected_congr hfreed' hhandled' ?_ reads).symm
          rw [hlink']
          exact input_buffer player.link
        · intro hfreed''
          rw [hfreed', hfreed] at hfreed''
          cases hfreed''
        · intro hnot
          rw [hhandled', hhandled] at hnot
          cases hnot
      · cases htype
  | @flushInput before after p rest player hsending hqueue hplayer hfreed =>
      obtain ⟨-, ⟨htype, -⟩ | ⟨htype, -⟩ | ⟨htype, -⟩⟩ := h.taken hqueue hplayer
      all_goals cases htype
  | @deleteConnect before after p rest player hsending hqueue hplayer hfreed =>
      obtain ⟨-, ⟨htype, -⟩ | ⟨htype, -⟩ | ⟨-, hhandled, hbuffer, hnothing⟩⟩ :=
        h.taken hqueue hplayer
      · cases htype
      · cases htype
      · refine h.update rfl (fun q hne ↦ ⟨?_, rfl⟩) ⟨0, hnothing⟩ (fun _ ↦ hbuffer) ?_ h.locks
        · exact typesOf_announced_others hqueue rfl rfl rfl hne
        · intro hnot
          rw [hhandled] at hnot
          cases hnot
  | @send item rest hsending =>
      refine h.congr rfl (fun q ↦ rfl) ?_ h.locks
      unfold Scene.made Scene.pending
      rw [hsending]
      simp

theorem handled_of_newConnect {player : PlayerStruct} {reads : ℕ}
    (h : .newConnect ∈ expected player reads) : player.handled = false := by
  unfold expected at h
  split_ifs at h <;> simp_all

/-- A new connection that was not announced yet has no lines. -/
theorem Scene.Orderly.silent_of_accepted (h : v.Orderly) {p : π} (hconn : v.conn = .accepted p) :
    itemsOf v.made p = [] := by
  cases hplayer : v.players p with
  | none => exact (h.unknown p hplayer).2
  | some player =>
      obtain ⟨reads, hreads⟩ := h.known p player hplayer
      have hmem : .newConnect ∈ typesOf v.announced p := by
        rw [typesOf_announced, hconn]
        simp [ConnStage.owed, typesOf_cons_self]
      exact h.silent p player hplayer (handled_of_newConnect (hreads ▸ hmem))

theorem Scene.Orderly.login (h : v.Orderly) (hmoves : v.LoginMoves event v') : v'.Orderly := by
  have hmade := hmoves.made
  have hsame (hqueue : v'.connectInputQ = v.connectInputQ) (hconn : v'.conn = v.conn)
      (howed : v'.login.owed = v.login.owed) (q : π) :
      typesOf v'.announced q = typesOf v.announced q := by
    rw [typesOf_announced, typesOf_announced, hqueue, hconn, howed]
  cases hmoves with
  | take hlogin hqueue => exact h.congr rfl (hsame rfl rfl (by rw [hlogin]; rfl)) hmade (.inr rfl)
  | handle hlogin | close hlogin | removed hlogin _ _ =>
      exact h.congr rfl (hsame rfl rfl (by rw [hlogin]; rfl)) hmade (.inr rfl)
  | @remove item player hlogin hconn hplayer hbuffer =>
      have hfreed := h.freed_of_buffer hplayer hbuffer
      obtain ⟨reads, hreads⟩ := h.known item.player player hplayer
      have hannounced (q : π) : typesOf (Scene.announced { v.set item.player player.destroy with
          login := .removes item }) q =
            typesOf v.announced q ++ typesOf [⟨.deleteConnect, item.player⟩] q := by
        rw [typesOf_announced, typesOf_announced, hlogin]
        change _ ++ (_ ++ typesOf [⟨.deleteConnect, item.player⟩] q) =
          _ ++ (_ ++ []) ++ typesOf [⟨.deleteConnect, item.player⟩] q
        rw [List.append_nil, List.append_assoc]
        rfl
      refine h.update rfl (fun q hne ↦ ⟨?_, congrArg (itemsOf · q) hmade⟩) ⟨reads, ?_⟩
        (fun _ ↦ rfl) (fun hhandled ↦ hmade ▸ h.silent _ player hplayer hhandled) (.inl hconn)
      · rw [hannounced, typesOf_cons_of_ne hne.symm]
        exact List.append_nil _
      · rw [hannounced, hreads, ← expected_destroy hfreed hbuffer, typesOf_cons_self]
        rfl
  | @mark item player hlogin hplayer =>
      have hannounced := hsame rfl rfl (by rw [hlogin]; rfl)
      have hconn : v.conn.locks = false := h.locks.resolve_right (by rw [hlogin]; nofun)
      obtain ⟨reads, hreads⟩ := h.known item.player player hplayer
      exact h.update rfl (fun q _ ↦ ⟨hannounced q, congrArg (itemsOf · q) hmade⟩)
        ⟨reads, (hannounced _).trans hreads⟩ (h.destroyed _ player hplayer)
        (fun hhandled ↦ hmade ▸ h.silent _ player hplayer hhandled) (.inl hconn)
  | @send item hlogin =>
      refine h.congr rfl (fun q ↦ ?_) hmade (.inr rfl)
      have hconn : v.conn.locks = false := h.locks.resolve_right (by rw [hlogin]; nofun)
      rw [typesOf_announced, typesOf_announced, hlogin]
      dsimp only
      rw [typesOf_append]
      change _ ++ typesOf [⟨.deleteConnect, item.player⟩] q ++ (_ ++ []) =
        _ ++ (_ ++ typesOf [⟨.deleteConnect, item.player⟩] q)
      rw [List.append_nil, List.append_assoc]
      congr 1
      cases hstage : v.conn with
      | selects => simp [ConnStage.owed]
      | removes _ | sends _ =>
          rw [hstage] at hconn
          cases hconn
      | accepted p =>
          -- nothing of a player is handled before the new connection was taken
          have hmem : item ∈ v.made := by
            unfold Scene.made Scene.pending
            rw [hlogin]
            simp [LoginStage.items]
          have hne := itemsOf_eq_nil.mp (h.silent_of_accepted hstage) item hmem
          rcases eq_or_ne p q with rfl | hne'
          · rw [typesOf_cons_of_ne hne]
            exact (List.append_nil _).symm
          · have hnothing : typesOf (ConnStage.owed (.accepted p)) q = [] :=
              typesOf_cons_of_ne hne' []
            rw [hnothing, List.append_nil]
            rfl

/-- Whatever the threads do, the announcements stay in order. -/
theorem Scene.Orderly.moves (h : v.Orderly) (hmoves : v.Moves event v') : v'.Orderly := by
  rcases hmoves with hmoves | hmoves | hmoves
  · exact h.conn hmoves
  · exact h.input hmoves
  · exact h.login hmoves

theorem orderly_start : (Scene.start : Scene π).Orderly :=
  ⟨fun _ _ ↦ ⟨rfl, rfl⟩, nofun, nofun, nofun, .inl rfl⟩

end Ways

end HavokMud.Pipeline
