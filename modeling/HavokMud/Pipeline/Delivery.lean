import HavokMud.Pipeline.Orders

/-!
# Every line is delivered once and in order

Whatever the threads do, what `LoginThread` has handled of a player, and what is on its way to it,
are the beginning of a session and then the lines of the bytes that `InputThread` was handed.  When
nothing is on its way any more, these are all the lines that were received.
-/

namespace HavokMud.Pipeline

open Buffer Queue Input Interaction Sequence

/-! ## One event -/

/-- The lines of a stream go on where a beginning of it has ended. -/
theorem arrive_cut {stream : List UInt8} (arrival : Arrival) (hflush : arrival.flush = false)
    (hafter : byteAt arrival.after 0 = 0) (hnul : 0 ∉ stream ++ arrival.chunk) :
    (arrive (keep (cut 10 stream).2) arrival).1 = keep (cut 10 (stream ++ arrival.chunk)).2 ∧
      (cut 10 stream).1.map clean ++ (arrive (keep (cut 10 stream).2) arrival).2 =
        (cut 10 (stream ++ arrival.chunk)).1.map clean := by
  rw [cut_append]
  dsimp only
  rw [List.map_append]
  by_cases hnone : takeInput arrival.inBuffer = none
  · rw [arrive_none hflush hnone, chunk_none hnone, List.append_nil,
      cut_of_not_mem (not_mem_cut stream).2]
    exact ⟨rfl, rfl⟩
  · obtain ⟨hstream, hchunk⟩ := not_or.mp (List.mem_append.not.mp hnul)
    have hrest : 0 ∉ (cut 10 stream).2 := by
      intro hmem
      apply hstream
      rw [← @join_cut _ _ 10 stream]
      exact List.mem_append_right _ hmem
    have htext : 0 ∉ (keep (cut 10 stream).2).getD [] ++ arrival.chunk := by
      rw [getD_keep, List.mem_append]
      rintro (hmem | hmem)
      · exact hrest ((List.dropWhile_suffix _).subset hmem)
      · exact hchunk hmem
    obtain ⟨extra, hlines, -, hquiet⟩ := arrive_whole hflush hnone (whole_of_not_mem htext)
    obtain ⟨rfl, hkept⟩ := hquiet hafter
    obtain ⟨hclean, hkeep⟩ := cut_keep (not_mem_cut stream).2 arrival.chunk
    rw [hlines, hkept, hclean, hkeep, List.append_nil]
    exact ⟨rfl, rfl⟩

/-- What one read leaves alone. -/
theorem readable_kept {link link' : Link} {buffer : BufferObject} {result : ReadResult}
    (h : link.readable buffer result = some link') :
    link'.handed = link.handed ∧ link'.flush = link.flush ∧ link'.fault = link.fault ∧
      link.received <+: link'.received := by
  unfold Link.readable at h
  cases result with
  | data bytes =>
      dsimp only at h
      split_ifs at h
      · obtain rfl := Option.some.inj h
        exact ⟨rfl, rfl, rfl, List.prefix_refl _⟩
      · split at h
        · cases h
        obtain rfl := Option.some.inj h
        exact ⟨rfl, rfl, rfl, List.prefix_append _ _⟩
      · split at h <;> cases h
  | eof | error =>
      dsimp only at h
      split_ifs at h
      all_goals
        obtain rfl := Option.some.inj h
        exact ⟨rfl, rfl, rfl, List.prefix_refl _⟩

/-- The removal of a connection. -/
theorem inv_destroy {player : PlayerStruct} (h : player.link.Inv) : player.destroy.link.Inv :=
  ⟨⟨nofun, nofun, h.destroyed, h.fault⟩, nofun⟩

section Lines

variable {π : Type} [DecidableEq π]

/-- What `InputThread` makes of the lines of a player. -/
def linesOf (p : π) (pieces : List (List UInt8)) : List (InputStateItem π) :=
  pieces.map fun piece ↦ ⟨.avail, p, some (clean piece)⟩

omit [DecidableEq π] in
theorem linesOf_eq_map (p : π) (pieces : List (List UInt8)) : linesOf p pieces =
    (pieces.map clean).map fun line ↦ (⟨.avail, p, some line⟩ : InputStateItem π) := by
  rw [List.map_map]
  rfl

/-- What is made of a player, of whom no NUL was received. -/
structure Scene.Delivers (v : Scene π) (p : π) (player : PlayerStruct) : Prop where
  link : player.link.Inv
  fresh : player.handled = false → player.link.handed = [] ∧ player.inRemain = none
  made : player.handled = true → 0 ∉ player.link.received →
    itemsOf v.made p = ⟨.initial, p, none⟩ :: linesOf p (cut 10 player.link.handed).1
  remain : player.link.flush = false → 0 ∉ player.link.received →
    player.inRemain = keep (cut 10 player.link.handed).2
  announced : ∀ buffer ∈ player.link.buffer, buffer.contents ≠ [] →
    ⟨.inputAvail, p⟩ ∈ v.announced
  flushed : player.link.flush = true → player.link.buffer = none

/-- No read fails, and the memory behind the assembled bytes is a NUL. -/
def Event.Plain : Event π → Prop
  | .readable _ .error => False
  | .inputTake _ after => byteAt after 0 = 0
  | _ => True

variable {v v' : Scene π} {event : Event π} {p : π} {player : PlayerStruct}

/-- A player of whom nothing changes. -/
theorem Scene.Delivers.congr (h : v.Delivers p player) (hmade : itemsOf v'.made p =
    itemsOf v.made p) (hannounced : ⟨.inputAvail, p⟩ ∈ v.announced →
      ⟨.inputAvail, p⟩ ∈ v'.announced) : v'.Delivers p player :=
  ⟨h.link, h.fresh, fun hhandled hnul ↦ hmade.trans (h.made hhandled hnul), h.remain,
    fun buffer hbuffer hne ↦ hannounced (h.announced buffer hbuffer hne), h.flushed⟩

/-- A player whose connection is removed. -/
theorem Scene.Delivers.destroy (h : v.Delivers p player) (hmade : v'.made = v.made) :
    v'.Delivers p player.destroy :=
  ⟨inv_destroy h.link, h.fresh, fun hhandled hnul ↦ hmade ▸ h.made hhandled hnul, h.remain, nofun,
    fun _ ↦ rfl⟩

/-- A player whose remaining input is ignored. -/
theorem Scene.Delivers.mark (h : v.Delivers p player) (hbuffer : player.link.buffer = none)
    (hmade : v'.made = v.made)
    (hannounced : ⟨.inputAvail, p⟩ ∈ v.announced → ⟨.inputAvail, p⟩ ∈ v'.announced) :
    v'.Delivers p player.mark :=
  ⟨⟨⟨h.link.wf, h.link.handed, h.link.destroyed, h.link.fault⟩, h.link.data⟩, h.fresh,
    fun hhandled hnul ↦ hmade ▸ h.made hhandled hnul, nofun,
    fun buffer hbuffer hne ↦ hannounced (h.announced buffer hbuffer hne), fun _ ↦ hbuffer⟩

theorem buffer_of_deleteConnect {reads : ℕ} (h : .deleteConnect ∈ expected player reads) :
    player.link.buffer = none := by
  by_contra hbuffer
  cases hfreed : player.freed with
  | true =>
      unfold expected at h
      rw [if_pos hfreed] at h
      cases h
  | false =>
      rw [expected_open player hfreed hbuffer] at h
      split_ifs at h <;> simp at h

/-- A removal that was not announced yet is that of a connection whose buffer was destroyed. -/
theorem Scene.Orderly.buffer_of_announced (h : v.Orderly) (hplayer : v.players p = some player)
    (hmem : ⟨.deleteConnect, p⟩ ∈ v.announced) : player.link.buffer = none := by
  obtain ⟨reads, hreads⟩ := h.known p player hplayer
  have hexpected : .deleteConnect ∈ expected player reads := by
    rw [← hreads]
    exact List.mem_map.mpr ⟨_, List.mem_filter.mpr ⟨hmem, decide_eq_true rfl⟩, rfl⟩
  exact buffer_of_deleteConnect hexpected

theorem Scene.ConnMoves.announced (h : v.ConnMoves event v') {item : ConnInputItem π}
    (hitem : item ∈ v.announced) : item ∈ v'.announced := by
  unfold Scene.announced at hitem ⊢
  simp only [List.mem_append] at hitem ⊢
  cases h with
  | accept hconn _ _ | readable hconn _ _ _ _ | except hconn _ _ _ =>
      rw [hconn] at hitem
      rcases hitem with hitem | hitem | hitem
      · exact .inl hitem
      · cases hitem
      · exact .inr (.inr hitem)
  | mark hconn _ =>
      rw [hconn] at hitem
      exact hitem
  | send hconn =>
      rw [ConnStage.owed_of_outgoing hconn] at hitem
      rcases hitem with hitem | hitem | hitem
      · exact .inl (List.mem_append_left _ hitem)
      · exact .inl (List.mem_append_right _ hitem)
      · exact .inr (.inr hitem)

theorem Scene.LoginMoves.announced (h : v.LoginMoves event v') {item : ConnInputItem π}
    (hitem : item ∈ v.announced) : item ∈ v'.announced := by
  unfold Scene.announced at hitem ⊢
  simp only [List.mem_append] at hitem ⊢
  cases h with
  | take hlogin _ | handle hlogin | close hlogin | removed hlogin _ _ | remove hlogin _ _ _ =>
      rw [hlogin] at hitem
      rcases hitem with hitem | hitem | hitem
      · exact .inl hitem
      · exact .inr (.inl hitem)
      · cases hitem
  | mark hlogin _ =>
      rw [hlogin] at hitem
      exact hitem
  | send hlogin =>
      rw [hlogin] at hitem
      rcases hitem with hitem | hitem | hitem
      · exact .inl (List.mem_append_left _ hitem)
      · exact .inr (.inl hitem)
      · exact .inl (List.mem_append_right _ hitem)

omit [DecidableEq π] in
/-- An item that is taken from the front was no other item. -/
theorem mem_announced_taken {item other : ConnInputItem π} {rest : List (ConnInputItem π)}
    (hitem : item ∈ v.announced) (hqueue : v.connectInputQ = other :: rest) (hne : item ≠ other)
    (hqueue' : v'.connectInputQ = rest) (hconn : v'.conn = v.conn) (hlogin : v'.login = v.login) :
    item ∈ v'.announced := by
  unfold Scene.announced at hitem ⊢
  rw [hqueue, List.cons_append] at hitem
  rw [hqueue', hconn, hlogin]
  exact (List.mem_cons.mp hitem).resolve_left hne

/-! ## Moves -/

omit [DecidableEq π] in
/-- Memory that was used after it was freed is not forgotten. -/
theorem Scene.Moves.fault [DecidableEq π] (h : v.Moves event v') (hfault : v'.fault = false) :
    v.fault = false := by
  rcases h with h | h | h <;> cases h <;> simp_all [Threads.set]

/-- All players get what is theirs. -/
def Scene.DeliversAll (v : Scene π) : Prop :=
  ∀ p player, v.players p = some player → v.Delivers p player

theorem delivers_create (v : Scene π) (p : π) : v.Delivers p .create := by
  have hinv := inv_create
  refine ⟨hinv, fun _ ↦ ⟨rfl, rfl⟩, nofun, fun _ _ ↦ rfl, fun buffer hbuffer hne ↦ ?_, nofun⟩
  have hbytes := hinv.handed buffer hbuffer
  exact absurd hbytes.symm hne

/-- A read that does not fail. -/
theorem Scene.Delivers.readable (h : v.Delivers p player) {buffer : BufferObject}
    {result : ReadResult} {link : Link} (hbuffer : player.link.buffer = some buffer)
    (hread : player.link.readable buffer result = some link) (hplain : result ≠ .error)
    (hmade : v'.made = v.made)
    (hannounced : ⟨.inputAvail, p⟩ ∈ v.announced → ⟨.inputAvail, p⟩ ∈ v'.announced)
    (hconn : v'.conn = afterRead p buffer result) :
    v'.Delivers p { player with link := link } := by
  obtain ⟨hhanded, hflush, -, hreceived⟩ := readable_kept hread
  refine ⟨h.link.readable hbuffer (fun herror ↦ absurd herror hplain) hread, ?_, ?_, ?_, ?_, ?_⟩
  · intro hhandled
    exact ⟨hhanded.trans (h.fresh hhandled).1, (h.fresh hhandled).2⟩
  · intro hhandled hnul
    dsimp only
    rw [hmade, hhanded]
    exact h.made hhandled fun hmem ↦ hnul (hreceived.subset hmem)
  · intro hflush' hnul
    dsimp only
    rw [hhanded]
    exact h.remain (hflush ▸ hflush') fun hmem ↦ hnul (hreceived.subset hmem)
  · intro other hother hne
    rcases readable_cases hread p with ⟨-, rfl⟩ | ⟨-, rfl⟩ | ⟨hafter, -⟩
    · exact hannounced (h.announced other hother hne)
    · cases hother
    · unfold Scene.announced
      rw [hconn, hafter]
      simp [ConnStage.owed]
  · intro hflush'
    rw [h.flushed (hflush ▸ hflush')] at hbuffer
    cases hbuffer

theorem Scene.DeliversAll.conn (h : v.DeliversAll) (horderly : v.Orderly) (hplain : event.Plain)
    (hmoves : v.ConnMoves event v') : v'.DeliversAll := by
  have hmade := hmoves.made
  have hannounced (q : π) : ⟨.inputAvail, q⟩ ∈ v.announced → ⟨.inputAvail, q⟩ ∈ v'.announced :=
    hmoves.announced
  have hothers (q : π) (other : PlayerStruct) (hq : v.players q = some other) :
      v'.Delivers q other := (h q other hq).congr (congrArg (itemsOf · q) hmade) (hannounced q)
  intro q other hq
  cases hmoves with
  | @accept p hconn _ hnew =>
      rcases update_eq_some hq with ⟨rfl, rfl⟩ | ⟨-, hq⟩
      · exact delivers_create _ q
      · exact hothers q other hq
  | @readable p player buffer result link hconn hlogin hplayer hbuffer hread =>
      rcases update_eq_some hq with ⟨rfl, rfl⟩ | ⟨-, hq⟩
      · exact (h q player hplayer).readable hbuffer hread (by rintro rfl; exact hplain) hmade
          (hannounced q) rfl
      · exact hothers q other hq
  | @except p player hconn hlogin hplayer hbuffer =>
      rcases update_eq_some hq with ⟨rfl, rfl⟩ | ⟨-, hq⟩
      · exact (h q player hplayer).destroy hmade
      · exact hothers q other hq
  | @mark p player hconn hplayer =>
      rcases update_eq_some hq with ⟨rfl, rfl⟩ | ⟨-, hq⟩
      · refine (h q player hplayer).mark (horderly.buffer_of_announced hplayer ?_) hmade
          (hannounced q)
        unfold Scene.announced
        rw [hconn]
        simp [ConnStage.owed]
      · exact hothers q other hq
  | send hconn => exact hothers q other hq

theorem Scene.DeliversAll.login (h : v.DeliversAll) (horderly : v.Orderly)
    (hmoves : v.LoginMoves event v') : v'.DeliversAll := by
  have hmade := hmoves.made
  have hannounced (q : π) : ⟨.inputAvail, q⟩ ∈ v.announced → ⟨.inputAvail, q⟩ ∈ v'.announced :=
    hmoves.announced
  have hothers (q : π) (other : PlayerStruct) (hq : v.players q = some other) :
      v'.Delivers q other := (h q other hq).congr (congrArg (itemsOf · q) hmade) (hannounced q)
  intro q other hq
  cases hmoves with
  | take _ _ | handle _ | close _ | removed _ _ _ | send _ => exact hothers q other hq
  | @remove item player hlogin hconn hplayer hbuffer =>
      rcases update_eq_some hq with ⟨rfl, rfl⟩ | ⟨-, hq⟩
      · exact (h _ player hplayer).destroy hmade
      · exact hothers q other hq
  | @mark item player hlogin hplayer =>
      rcases update_eq_some hq with ⟨rfl, rfl⟩ | ⟨-, hq⟩
      · refine (h _ player hplayer).mark (horderly.buffer_of_announced hplayer ?_) hmade
          (hannounced _)
        unfold Scene.announced
        rw [hlogin]
        simp [LoginStage.owed]
      · exact hothers q other hq

omit [DecidableEq π] in
/-- What `InputThread` takes out of a buffer. -/
theorem input_taken {link : Link} (h : link.Inv) {buffer : BufferObject}
    (hflush : link.flush = false) (hbuffer : link.buffer = some buffer) :
    link.input.handed = link.handed ++ ((takeInput buffer).map Prod.fst).getD [] ∧
      link.input.received = link.received ∧ link.input.flush = false ∧
      ∀ other ∈ link.input.buffer, other.contents = [] := by
  have hinv := h.input (.inr (hbuffer ▸ Option.some_ne_none buffer))
  have hbytes := h.handed buffer hbuffer
  unfold Link.input at hinv ⊢
  rw [if_neg (Bool.eq_false_iff.mp hflush), hbuffer] at hinv ⊢
  dsimp only at hinv ⊢
  rcases takeInput_eq (h.wf buffer hbuffer) (h.data buffer hbuffer) with
    ⟨hnone, hcontents⟩ | ⟨hsome, -, hcontents⟩
  · rw [hnone]
    refine ⟨(List.append_nil _).symm, rfl, hflush, fun other hother ↦ ?_⟩
    rw [hbuffer] at hother
    obtain rfl := Option.some.inj hother
    exact hcontents
  · rw [hsome] at hinv ⊢
    dsimp only at hinv ⊢
    split_ifs at hinv ⊢
    · refine ⟨rfl, rfl, hflush, fun other hother ↦ ?_⟩
      obtain rfl := Option.some.inj hother
      exact hcontents
    · exact absurd hinv.fault nofun

/-- `CONN_INPUT_AVAIL` of a player whose remaining input is ignored. -/
theorem inputAvail_flush (before after : List UInt8) (hflush : player.link.flush = true) :
    player.inputAvail before after = ({ player with inRemain := none }, []) := by
  have hinput : player.link.input = player.link := by
    unfold Link.input
    exact if_pos hflush
  unfold PlayerStruct.inputAvail Input.inputAvail
  rw [hinput, hflush]
  cases player.link.buffer with
  | none => rfl
  | some buffer => rfl

/-- `CONN_INPUT_AVAIL` of a player whose buffer is there, or whose input is ignored. -/
theorem Scene.Delivers.inputAvail (h : v.Delivers p player) {before after : List UInt8}
    (hhandled : player.handled = true) (hafter : byteAt after 0 = 0)
    (hfault : (player.inputAvail before after).1.link.fault = false)
    (hmade : itemsOf v'.made p = itemsOf v.made p ++
      (player.inputAvail before after).2.map fun line ↦ ⟨.avail, p, some line⟩) :
    v'.Delivers p (player.inputAvail before after).1 := by
  obtain ⟨-, hhandled', hlink⟩ := inputAvail_kept before after player
  rw [hhandled] at hhandled'
  have hnot : (player.inputAvail before after).1.handled ≠ false := by
    rw [hhandled']
    nofun
  cases hflush : player.link.flush with
  | true =>
      rw [inputAvail_flush before after hflush] at hmade ⊢
      rw [List.map_nil, List.append_nil] at hmade
      have hbuffer := h.flushed hflush
      refine ⟨h.link, fun h' ↦ ?_, fun _ hnul ↦ hmade.trans (h.made hhandled hnul), fun h' ↦ ?_,
        fun buffer hbuffer' ↦ ?_, h.flushed⟩
      · rw [hhandled] at h'
        cases h'
      · rw [hflush] at h'
        cases h'
      · rw [hbuffer] at hbuffer'
        cases hbuffer'
  | false =>
      rw [hlink] at hfault
      obtain ⟨buffer, hbuffer⟩ : ∃ buffer, player.link.buffer = some buffer := by
        cases hbuffer : player.link.buffer with
        | some buffer => exact ⟨buffer, rfl⟩
        | none =>
            unfold Link.input at hfault
            rw [if_neg (Bool.eq_false_iff.mp hflush), hbuffer] at hfault
            cases hfault
      obtain ⟨hhanded, hreceived, hflush', hempty⟩ := input_taken h.link hflush hbuffer
      have harrive : ((player.inputAvail before after).1.inRemain,
          (player.inputAvail before after).2) =
            arrive player.inRemain ⟨false, buffer, before, after⟩ := by
        unfold PlayerStruct.inputAvail arrive
        rw [hbuffer, hflush]
      have hinv : player.link.input.Inv := h.link.input (.inr (hbuffer ▸ Option.some_ne_none _))
      have hlines (hnul : 0 ∉ player.link.received) :
          (arrive player.inRemain ⟨false, buffer, before, after⟩).1 =
              keep (cut 10 player.link.input.handed).2 ∧
            (cut 10 player.link.handed).1.map clean ++
                (arrive player.inRemain ⟨false, buffer, before, after⟩).2 =
              (cut 10 player.link.input.handed).1.map clean := by
        rw [h.remain hflush hnul, hhanded]
        refine arrive_cut ⟨false, buffer, before, after⟩ rfl hafter fun hmem ↦ ?_
        apply hnul
        have hbegins := hinv.destroyed
        rw [hreceived, hhanded] at hbegins
        exact hbegins.subset hmem
      have hremain : (player.inputAvail before after).1.inRemain =
          (arrive player.inRemain ⟨false, buffer, before, after⟩).1 := congrArg Prod.fst harrive
      have hsent : (player.inputAvail before after).2 =
          (arrive player.inRemain ⟨false, buffer, before, after⟩).2 := congrArg Prod.snd harrive
      refine ⟨?_, fun h' ↦ absurd h' hnot, fun _ hnul ↦ ?_, fun _ hnul ↦ ?_,
        fun other hother hne ↦ ?_, fun h' ↦ ?_⟩
      · rw [hlink]
        exact hinv
      · rw [hlink] at hnul ⊢
        rw [hreceived] at hnul
        rw [hmade, h.made hhandled hnul, hsent, linesOf_eq_map, linesOf_eq_map, List.cons_append,
          ← List.map_append, (hlines hnul).2]
      · rw [hlink] at hnul ⊢
        rw [hreceived] at hnul
        rw [hremain]
        exact (hlines hnul).1
      · rw [hlink] at hother
        exact absurd (hempty other hother) hne
      · rw [hlink, hflush'] at h'
        cases h'

/-- `CONN_NEW_CONNECT`. -/
theorem Scene.Delivers.newConnect (h : v.Delivers p player) (hhandled : player.handled = false)
    (hmade : itemsOf v'.made p = [⟨.initial, p, none⟩])
    (hannounced : ⟨.inputAvail, p⟩ ∈ v.announced → ⟨.inputAvail, p⟩ ∈ v'.announced) :
    v'.Delivers p { player with handled := true } := by
  refine ⟨h.link, nofun, fun _ _ ↦ hmade.trans ?_, h.remain,
    fun buffer hbuffer hne ↦ hannounced (h.announced buffer hbuffer hne), h.flushed⟩
  change _ = _ :: linesOf p (cut 10 player.link.handed).1
  rw [(h.fresh hhandled).1]
  rfl

theorem Scene.DeliversAll.input (h : v.DeliversAll) (horderly : v.Orderly) (hplain : event.Plain)
    (hmoves : v.InputMoves event v') (hfault : v'.fault = false) : v'.DeliversAll := by
  intro q other hq
  cases hmoves with
  | freed hsending hqueue hplayer hfreed => cases hfault
  | @newConnect before after p rest player hsending hqueue hplayer hfreed =>
      rcases update_eq_some hq with ⟨rfl, rfl⟩ | ⟨hne, hq⟩
      · obtain ⟨-, ⟨-, hhandled, -⟩ | ⟨htype, -⟩ | ⟨htype, -⟩⟩ := horderly.taken hqueue hplayer
        · refine (h q player hplayer).newConnect hhandled ?_
            fun hmem ↦ mem_announced_taken hmem hqueue nofun rfl rfl rfl
          refine Eq.trans (itemsOf_made_taken hsending rfl rfl rfl) ?_
          rw [horderly.silent q player hplayer hhandled]
          exact itemsOf_eq_self (by simp)
        · cases htype
        · cases htype
      · refine (h q other hq).congr (itemsOf_made_others hsending rfl rfl rfl ?_)
          fun hmem ↦ mem_announced_taken hmem hqueue nofun rfl rfl rfl
        intro item hitem
        obtain rfl := List.mem_singleton.mp hitem
        exact hne.symm
  | @inputAvail before after p rest player hsending hqueue hplayer hfreed =>
      have hsent : ∀ item ∈ (player.inputAvail before after).2.map fun line ↦
          (⟨.avail, p, some line⟩ : InputStateItem π), item.player = p := by
        intro item hitem
        obtain ⟨line, -, rfl⟩ := List.mem_map.mp hitem
        rfl
      rcases update_eq_some hq with ⟨rfl, rfl⟩ | ⟨hne, hq⟩
      · obtain ⟨-, ⟨htype, -⟩ | ⟨-, hhandled, -⟩ | ⟨htype, -⟩⟩ := horderly.taken hqueue hplayer
        · cases htype
        · refine (h q player hplayer).inputAvail hhandled hplain
            (Bool.or_eq_false_iff.mp hfault).2 ?_
          refine Eq.trans (itemsOf_made_taken hsending rfl rfl rfl) ?_
          exact congrArg (_ ++ ·) (itemsOf_eq_self hsent)
        · cases htype
      · refine (h q other hq).congr (itemsOf_made_others hsending rfl rfl rfl ?_) fun hmem ↦
          mem_announced_taken hmem hqueue
            (fun heq ↦ hne (congrArg ConnInputItem.player heq)) rfl rfl rfl
        exact fun item hitem ↦ (hsent item hitem).symm ▸ hne.symm
  | @flushInput before after p rest player hsending hqueue hplayer hfreed =>
      obtain ⟨-, ⟨htype, -⟩ | ⟨htype, -⟩ | ⟨htype, -⟩⟩ := horderly.taken hqueue hplayer
      all_goals cases htype
  | @deleteConnect before after p rest player hsending hqueue hplayer hfreed =>
      have hsame (r : π) (player : PlayerStruct) (hr : v.players r = some player) :
          Scene.Delivers { v.set p { player with freed := true } with connectInputQ := rest } r
            player :=
        (h r player hr).congr rfl fun hmem ↦ mem_announced_taken hmem hqueue nofun rfl rfl rfl
      rcases update_eq_some hq with ⟨rfl, rfl⟩ | ⟨-, hq⟩
      · obtain ⟨hlink, hfresh, hmade, hremain, hannounced, hflushed⟩ := hsame q player hplayer
        exact ⟨hlink, hfresh, hmade, hremain, hannounced, hflushed⟩
      · obtain ⟨hlink, hfresh, hmade, hremain, hannounced, hflushed⟩ := hsame q other hq
        exact ⟨hlink, hfresh, hmade, hremain, hannounced, hflushed⟩
  | @send item rest hsending =>
      refine (h q other hq).congr (congrArg (itemsOf · q) ?_) id
      unfold Scene.made Scene.pending
      rw [hsending]
      simp

/-- What holds after a run: the announcements are in order, and everybody gets what is theirs. -/
theorem delivers_of_moves (h : v.Orderly ∧ (v.fault = false → v.DeliversAll))
    (hplain : event.Plain) (hmoves : v.Moves event v') :
    v'.Orderly ∧ (v'.fault = false → v'.DeliversAll) := by
  obtain ⟨horderly, hall⟩ := h
  refine ⟨horderly.moves hmoves, fun hfault ↦ ?_⟩
  have hall := hall (hmoves.fault hfault)
  rcases hmoves with hmoves | hmoves | hmoves
  · exact hall.conn horderly hplain hmoves
  · exact hall.input horderly hplain hmoves hfault
  · exact hall.login horderly hmoves

end Lines

/-! ## Runs -/

section Runs

variable {π : Type} [DecidableEq π]

/-- Nothing happens any more unless something comes from outside. -/
structure Machine.Idle (s : Machine π) : Prop where
  connectInputQ : s.connectInputQ.empty = true
  inputLoginQ : s.inputLoginQ.empty = true
  conn : s.conn = .selects
  sending : s.sending = []
  login : s.login = .waits

variable {connectSize loginSize : UInt32} {connectInputQ : QueueObject (ConnInputItem π)}
  {inputLoginQ : QueueObject (InputStateItem π)} {s : Machine π} {events : List (Event π)}
  {p : π} {player : PlayerStruct}

/-- Whatever the threads have done, in whatever order: if no read has failed and no freed memory was
used, then of a player who has sent no NUL, what was handled, is handled, waits and is still to be
enqueued are the beginning of the session and the lines of what was taken from the buffer, each once
and in order.  When the threads are idle, all lines that were received on a connection have been
handled. -/
theorem lines_delivered (hconnect : 2 ≤ connectSize.toNat)
    (hconnectInputQ : queueCreate connectSize = some connectInputQ) (hlogin : 2 ≤ loginSize.toNat)
    (hinputLoginQ : queueCreate loginSize = some inputLoginQ)
    (hrun : runFrom Machine.step (.start connectInputQ inputLoginQ) events = some s)
    (hplain : ∀ event ∈ events, event.Plain) (hfault : s.fault = false)
    (hplayer : s.players p = some player) (hnul : 0 ∉ player.link.received) :
    ∃ waiting, Represents s.inputLoginQ waiting ∧ player.link.handed <+: player.link.received ∧
      itemsOf (s.done ++ (s.login.items ++ (waiting ++ s.sending))) p =
        (if player.handled then
          ⟨.initial, p, none⟩ :: linesOf p (cut 10 player.link.handed).1 else []) ∧
      (s.Idle → player.link.buffer ≠ none →
        itemsOf s.done p = ⟨.initial, p, none⟩ :: linesOf p (cut 10 player.link.received).1) := by
  have hstart := shows_start (lists_queueCreate hconnect hconnectInputQ)
    (lists_queueCreate hlogin hinputLoginQ)
  obtain ⟨v, ⟨announced, waiting, hannounced, hwaiting, rfl⟩, horderly, hall⟩ :=
    hstart.run (fun _ _ _ h hevent hmoves ↦ delivers_of_moves h hevent hmoves)
      ⟨orderly_start, fun _ ↦ nofun⟩ hplain hrun
  have hdelivers := hall hfault p player hplayer
  have hmade : itemsOf (s.done ++ (s.login.items ++ (waiting ++ s.sending))) p =
      if player.handled then
        ⟨.initial, p, none⟩ :: linesOf p (cut 10 player.link.handed).1 else [] := by
    cases hhandled : player.handled with
    | true => exact hdelivers.made hhandled hnul
    | false => exact horderly.silent p player hplayer hhandled
  refine ⟨waiting, hwaiting.1, hdelivers.link.destroyed, hmade, fun hidle hbuffer ↦ ?_⟩
  obtain rfl := hannounced.1.empty_iff.mp hidle.connectInputQ
  obtain rfl := hwaiting.1.empty_iff.mp hidle.inputLoginQ
  obtain ⟨buffer, hsome⟩ := Option.ne_none_iff_exists'.mp hbuffer
  have hnothing : (s.scene [] []).announced = [] := by
    unfold Scene.announced Machine.scene
    dsimp only
    rw [hidle.conn, hidle.login]
    rfl
  have hhandled : player.handled = true := by
    obtain ⟨reads, hreads⟩ := horderly.known p player hplayer
    rw [hnothing, typesOf_nil, expected_open player (horderly.freed_of_buffer hplayer hbuffer)
      hbuffer] at hreads
    by_contra hnot
    rw [if_neg hnot] at hreads
    cases hreads
  have hempty : buffer.contents = [] := by
    by_contra hne
    have hmem := hdelivers.announced buffer hsome hne
    rw [hnothing] at hmem
    cases hmem
  have hbytes := hdelivers.link.handed buffer hsome
  rw [hempty, List.append_nil] at hbytes
  rw [hidle.login, hidle.sending, if_pos hhandled] at hmade
  rw [hbytes, ← hmade]
  simp [LoginStage.items]

/-- A connection with a line that arrives in two pieces. -/
def twoPieces : List (Event ℕ) :=
  [.accept 0, .connSend, .inputTake [] [0], .inputSend, .readable 0 (.data [104]), .connSend,
    .inputTake [] [0], .readable 0 (.data [105, 10]), .loginTake, .connSend, .loginHandle,
    .inputTake [] [0], .inputSend, .loginTake, .loginHandle]

/-- The line has been handled, after the beginning of the session. -/
theorem lines_delivered_twoPieces : ∃ (connectInputQ : QueueObject (ConnInputItem ℕ))
    (inputLoginQ : QueueObject (InputStateItem ℕ)) (s : Machine ℕ),
    queueCreate 2 = some connectInputQ ∧ queueCreate 2 = some inputLoginQ ∧
    runFrom Machine.step (.start connectInputQ inputLoginQ) twoPieces = some s ∧
    itemsOf s.done 0 = [⟨.initial, 0, none⟩, ⟨.avail, 0, some [104, 105]⟩] := by
  have hstart := exists_start (a := true) 2 (fun start : Machine ℕ ↦
    (runFrom Machine.step start twoPieces).bind fun s ↦ (s.players 0).map fun player ↦
      decide (s.fault = false ∧ 0 ∉ player.link.received ∧ player.link.buffer ≠ none ∧
        player.link.received = [104, 105, 10] ∧ s.connectInputQ.empty = true ∧
        s.inputLoginQ.empty = true ∧ s.conn = .selects ∧ s.sending = [] ∧
        s.login = .waits)) (by decide +kernel)
  obtain ⟨connectInputQ, inputLoginQ, hconnectInputQ, hinputLoginQ, hrun⟩ := hstart
  obtain ⟨s, hs, hmap⟩ := Option.bind_eq_some_iff.mp hrun
  obtain ⟨player, hplayer, hdecide⟩ := Option.map_eq_some_iff.mp hmap
  obtain ⟨hfault, hnul, hbuffer, hreceived, hidle⟩ := of_decide_eq_true hdecide
  have hplain : ∀ event ∈ twoPieces, event.Plain := by
    simp [twoPieces, Event.Plain, byteAt]
  obtain ⟨-, -, -, -, hall⟩ := lines_delivered (by decide) hconnectInputQ (by decide)
    hinputLoginQ hs hplain hfault hplayer hnul
  refine ⟨connectInputQ, inputLoginQ, s, hconnectInputQ, hinputLoginQ, hs, ?_⟩
  rw [hall ⟨hidle.1, hidle.2.1, hidle.2.2.1, hidle.2.2.2.1, hidle.2.2.2.2⟩ hbuffer, hreceived]
  decide

end Runs

end HavokMud.Pipeline
