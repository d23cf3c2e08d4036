import HavokMud.BTree.Keys
import HavokMud.Json.Values

/-!
# Form data

`mg_get_var` looks for a variable in the body of a request and `url_decode` decodes its value into a
buffer.  They see the body as memory with an end, and look behind the end for the digits of a `%`.
What they find is the value of the first field that has the name.

`getJSONPayload` reads the body of a request, in whatever pieces it arrives, decodes the variable
that holds the payload and parses it.  A client may encode the payload as it likes and send other
fields with it: the handler gets what the client's text parses to.
-/

namespace HavokMud.Web

open BTree

def isDigit (c : UInt8) : Bool :=
  48 ≤ c ∧ c ≤ 57

def isXDigit (c : UInt8) : Bool :=
  isDigit c ∨ 65 ≤ c ∧ c ≤ 70 ∨ 97 ≤ c ∧ c ≤ 102

/-- `HEXTOI` of a small digit. -/
def hexToI (x : UInt8) : UInt8 :=
  if isDigit x then x - 48 else x - 87

/-- The byte of two digits. -/
def hexByte (a b : UInt8) : UInt8 :=
  hexToI (toLower a) <<< 4 ||| hexToI (toLower b)

/-- `url_decode`, with `left` bytes of `src` to go and room for so many in `dst`.  It may not look
behind the memory. -/
def urlDecode (isFormUrlEncoded : Bool) : ℕ → ℕ → List UInt8 → Option (List UInt8)
  | 0, _, _ => some []
  | _ + 1, 0, _ => some []
  | _ + 1, _ + 1, [] => none
  | left + 1, room + 1, c :: src =>
      if c = 37 then
        match src with
        | [] => none
        | [a] =>
            if isXDigit a then none
            else (urlDecode isFormUrlEncoded left room [a]).map (c :: ·)
        | a :: b :: src =>
            if isXDigit a ∧ isXDigit b then
              (urlDecode isFormUrlEncoded (left - 2) room src).map (hexByte a b :: ·)
            else (urlDecode isFormUrlEncoded left room (a :: b :: src)).map (c :: ·)
      else
        (urlDecode isFormUrlEncoded left room src).map
          ((if isFormUrlEncoded ∧ c = 43 then 32 else c) :: ·)

/-- The loop of `mg_get_var`, `left` bytes before the end: where the value begins, and how far from
there the end is. -/
def mgGetVarFrom (name : List UInt8) : Bool → ℕ → List UInt8 → Option (List UInt8 × ℕ)
  | _, 0, _ => none
  | start, left + 1, p =>
      if left + 1 ≤ name.length then none
      else if start ∧ p[name.length]? = some 61 ∧ fold (p.take name.length) = fold name then
        some (p.drop (name.length + 1), left - name.length)
      else mgGetVarFrom name (p.head? = some 38) left (p.drop 1)

/-- `mg_get_var`: its result, and the string in `dst`. -/
def mgGetVar (buf : List UInt8) (bufLen : ℕ) (name : List UInt8) (dstLen : ℕ) :
    Option (ℤ × List UInt8) :=
  match mgGetVarFrom name true bufLen buf with
  | none => some (-1, [])
  | some (p, left) =>
      let length := ((p.take left).takeWhile (· ≠ 38)).length
      if length < dstLen then
        (urlDecode true length (dstLen - 1) p).map fun dst ↦ (dst.length, dst)
      else some (-1, [])

/-! ## Decoding -/

/-- A character that is no digit pair. -/
def plain (c : UInt8) : UInt8 :=
  if c = 43 then 32 else c

/-- The text that a value stands for. -/
def decoded : List UInt8 → List UInt8
  | [] => []
  | c :: value =>
      match value with
      | [] => [plain c]
      | [a] => plain c :: decoded [a]
      | a :: b :: value =>
          if c = 37 ∧ isXDigit a ∧ isXDigit b then hexByte a b :: decoded value
          else plain c :: decoded (a :: b :: value)

variable {value rest : List UInt8} {a b c : UInt8}

theorem decoded_percent (ha : isXDigit a = true) (hb : isXDigit b = true) (value : List UInt8) :
    decoded (37 :: a :: b :: value) = hexByte a b :: decoded value := by
  rw [decoded]
  simp [ha, hb]

theorem decoded_plain (h : ∀ a b value', c = 37 → value = a :: b :: value' →
    isXDigit a = true → isXDigit b = false) : decoded (c :: value) = plain c :: decoded value := by
  match value with
  | [] => rfl
  | [a] => rfl
  | a :: b :: value' =>
      rw [decoded]
      refine if_neg ?_
      rintro ⟨hc, ha, hb⟩
      rw [h a b value' hc rfl ha] at hb
      cases hb

section Decode

variable {left room : ℕ} {src : List UInt8}

theorem urlDecode_other (hc : c ≠ 37) : urlDecode true (left + 1) (room + 1) (c :: src) =
    (urlDecode true left room src).map (plain c :: ·) := by
  match src with
  | [] | [a] | a :: b :: src =>
      rw [urlDecode, if_neg hc]
      simp [plain]

theorem urlDecode_percent (ha : isXDigit a = true) (hb : isXDigit b = true) :
    urlDecode true (left + 1) (room + 1) (37 :: a :: b :: src) =
      (urlDecode true (left - 2) room src).map (hexByte a b :: ·) := by
  rw [urlDecode, if_pos rfl, if_pos ⟨ha, hb⟩]

/-- A `%` without two digits. -/
theorem urlDecode_literal (h : isXDigit a = true → isXDigit b = false) :
    urlDecode true (left + 1) (room + 1) (37 :: a :: b :: src) =
      (urlDecode true left room (a :: b :: src)).map (37 :: ·) := by
  rw [urlDecode, if_pos rfl, if_neg]
  rintro ⟨ha, hb⟩
  rw [h ha] at hb
  cases hb

theorem urlDecode_literal_last (ha : isXDigit a = false) :
    urlDecode true (left + 1) (room + 1) (37 :: a :: src) =
      (urlDecode true left room (a :: src)).map (37 :: ·) := by
  match src with
  | [] =>
      rw [urlDecode, if_pos rfl]
      simp [ha]
  | b :: src =>
      apply urlDecode_literal
      intro h
      rw [ha] at h
      cases h

end Decode

/-- `url_decode` with room enough, if what stands behind the value is no digit. -/
theorem urlDecode_eq (hc : isXDigit c = false) {room : ℕ} (hroom : value.length ≤ room) :
    urlDecode true value.length room (value ++ c :: rest) = some (decoded value) := by
  induction hlength : value.length using Nat.strong_induction_on generalizing value room with
  | _ n ih =>
      subst hlength
      match value, room with
      | [], _ => rw [List.length_nil, urlDecode]; rfl
      | d :: value, room + 1 =>
          have hnext : urlDecode true value.length room (value ++ c :: rest) =
              some (decoded value) := ih _ (by simp) (by simpa using hroom) rfl
          rw [List.length_cons, List.cons_append]
          by_cases hd : d = 37
          · subst hd
            match value with
            | [] =>
                rw [List.nil_append, urlDecode_literal_last hc]
                exact congrArg (Option.map _) hnext
            | [a] =>
                rw [List.singleton_append, urlDecode_literal fun _ ↦ hc]
                exact congrArg (Option.map _) hnext
            | a :: b :: value =>
                rw [List.cons_append, List.cons_append]
                by_cases hex : isXDigit a = true ∧ isXDigit b = true
                · have hskip : urlDecode true value.length room (value ++ c :: rest) =
                      some (decoded value) :=
                    ih _ (by simp only [List.length_cons]; omega)
                      (by simp only [List.length_cons] at hroom; omega) rfl
                  rw [urlDecode_percent hex.1 hex.2, decoded_percent hex.1 hex.2]
                  simp only [List.length_cons, Nat.reduceSubDiff]
                  exact congrArg (Option.map _) hskip
                · have hb : isXDigit a = true → isXDigit b = false :=
                    fun ha ↦ Bool.eq_false_iff.mpr fun hb ↦ hex ⟨ha, hb⟩
                  rw [urlDecode_literal hb, decoded_plain]
                  · exact congrArg (Option.map _) hnext
                  · intro a' b' value' _ heq
                    obtain ⟨ha, hb', -⟩ : a = a' ∧ b = b' ∧ value = value' := by simpa using heq
                    rwa [← ha, ← hb']
          · rw [urlDecode_other hd, hnext, decoded_plain fun _ _ _ heq ↦ absurd heq hd]
            rfl

/-! ## Finding -/

/-- A field of a body that has a name. -/
def IsNamed (name field : List UInt8) : Prop :=
  field[name.length]? = some 61 ∧ fold (field.take name.length) = fold name

instance (name field : List UInt8) : Decidable (IsNamed name field) :=
  inferInstanceAs (Decidable (_ ∧ _))

section Find

variable {name text after field : List UInt8} {start : Bool}

theorem mgGetVarFrom_of_le {left : ℕ} (h : left ≤ name.length) (start : Bool) (p : List UInt8) :
    mgGetVarFrom name start left p = none := by
  cases left with
  | zero => rw [mgGetVarFrom]
  | succ left => rw [mgGetVarFrom, if_pos h]

theorem not_mem_of_fold {text : List UInt8} (hname : 38 ∉ name) (h : fold text = fold name) :
    38 ∉ text := by
  intro hmem
  have hfold : (toLower 38).toNat ∈ fold name := by
    rw [← h]
    exact List.mem_map_of_mem hmem
  obtain ⟨c, hc, heq⟩ := List.mem_map.mp hfold
  rw [Caseless.eq_of_toLower (by decide) heq] at hc
  exact hname hc

theorem length_eq_of_fold {text : List UInt8} (h : fold text = fold name) :
    text.length = name.length := by
  simpa [fold] using congrArg List.length h

/-- A field is named as soon as the memory from it on is. -/
theorem isNamed_of_memory (hname : 38 ∉ name) (h : IsNamed name (field ++ 38 :: after)) :
    IsNamed name field := by
  obtain ⟨heq, hfold⟩ := h
  have hlt : name.length < field.length := by
    by_contra hge
    rw [not_lt] at hge
    rcases hge.eq_or_lt with hlast | hmore
    · rw [← hlast, List.getElem?_append_right le_rfl, Nat.sub_self] at heq
      cases heq
    · apply not_mem_of_fold hname hfold
      apply List.mem_iff_getElem?.mpr
      refine ⟨field.length, ?_⟩
      rw [List.getElem?_take_of_lt hmore, List.getElem?_append_right le_rfl, Nat.sub_self]
      rfl
  rw [IsNamed, ← List.getElem?_append_left hlt, ← List.take_append_of_le_length hlt.le]
  exact ⟨heq, hfold⟩

theorem mgGetVarFrom_step {left : ℕ} {p : List UInt8}
    (h : start = true → ¬ IsNamed name p) :
    mgGetVarFrom name start (left + 1) p =
      mgGetVarFrom name (p.head? = some 38) left (p.drop 1) := by
  rw [mgGetVarFrom]
  split_ifs with hshort hfound
  · exact (mgGetVarFrom_of_le (by omega) _ _).symm
  · exact absurd hfound.2 (h hfound.1)
  · rfl

/-- A field that has another name is passed over. -/
theorem mgGetVarFrom_skip (hname : 38 ∉ name) (hfield : 38 ∉ field)
    (h : start = true → ¬ IsNamed name field) :
    mgGetVarFrom name start (field ++ 38 :: text).length (field ++ 38 :: (text ++ after)) =
      mgGetVarFrom name true text.length (text ++ after) := by
  have hother : start = true → ¬ IsNamed name (field ++ 38 :: (text ++ after)) :=
    fun hstart hnamed ↦ h hstart (isNamed_of_memory hname hnamed)
  induction field generalizing start with
  | nil =>
      rw [List.nil_append, List.length_cons]
      exact mgGetVarFrom_step hother
  | cons c field ih =>
      rw [List.mem_cons, not_or] at hfield
      rw [List.cons_append, List.length_cons]
      apply (mgGetVarFrom_step hother).trans
      have hstart : decide ((c :: (field ++ 38 :: (text ++ after))).head? = some 38) = false := by
        simpa using Ne.symm hfield.1
      rw [List.cons_append, hstart]
      exact ih hfield.2 (fun h ↦ by cases h) fun h ↦ by cases h

theorem mgGetVarFrom_last (hfield : 38 ∉ field) (h : start = true → ¬ IsNamed name field) :
    mgGetVarFrom name start field.length (field ++ after) = none := by
  induction field generalizing start with
  | nil => exact mgGetVarFrom_of_le (Nat.zero_le _) _ _
  | cons c field ih =>
      by_cases hshort : (c :: field).length ≤ name.length
      · exact mgGetVarFrom_of_le hshort _ _
      rw [not_le] at hshort
      rw [List.length_cons]
      refine (mgGetVarFrom_step ?_).trans ?_
      · intro hstart hnamed
        apply h hstart
        rw [IsNamed, List.getElem?_append_left hshort,
          List.take_append_of_le_length hshort.le] at hnamed
        exact hnamed
      · rw [List.mem_cons, not_or] at hfield
        have hstart : decide ((c :: (field ++ after)).head? = some 38) = false := by
          simpa using Ne.symm hfield.1
        rw [List.cons_append, hstart]
        exact ih hfield.2 fun h ↦ by cases h

theorem mgGetVarFrom_first {back : List UInt8} (h : IsNamed name field) :
    mgGetVarFrom name true (field ++ back).length (field ++ back ++ after) =
      some (field.drop (name.length + 1) ++ back ++ after,
        (field.drop (name.length + 1) ++ back).length) := by
  have hlt : name.length < field.length := (List.getElem?_eq_some_iff.mp h.1).1
  obtain ⟨left, hleft⟩ : ∃ left, (field ++ back).length = left + 1 :=
    Nat.exists_eq_add_of_le' (by rw [List.length_append]; omega)
  have hlength := @List.length_append _ field back
  rw [hleft, mgGetVarFrom, if_neg (by omega), if_pos, List.append_assoc,
    List.drop_append_of_le_length hlt]
  · rw [List.append_assoc, List.length_append, List.length_drop]
    congr 2
    omega
  · rw [List.append_assoc, List.getElem?_append_left hlt, List.take_append_of_le_length hlt.le]
    exact ⟨rfl, h⟩

/-- The fields of a body with a `&` between them. -/
def formBody (fields : List (List UInt8)) : List UInt8 :=
  [38].intercalate fields

theorem formBody_cons (field field' : List UInt8) (fields : List (List UInt8)) :
    formBody (field :: field' :: fields) = field ++ 38 :: formBody (field' :: fields) := by
  rw [formBody, List.intercalate_cons_cons, List.append_assoc]
  rfl

/-- The loop stops at the first field that has the name. -/
theorem mgGetVarFrom_eq (hname : 38 ∉ name) (after : List UInt8) {fields : List (List UInt8)}
    (hfields : ∀ field ∈ fields, 38 ∉ field) :
    ∃ back : List UInt8, (back = [] ∨ back.head? = some 38) ∧
      mgGetVarFrom name true (formBody fields).length (formBody fields ++ after) =
        (fields.find? (IsNamed name)).map fun field ↦
          (field.drop (name.length + 1) ++ back ++ after,
            (field.drop (name.length + 1) ++ back).length) := by
  induction fields with
  | nil => exact ⟨[], .inl rfl, mgGetVarFrom_of_le (Nat.zero_le _) _ _⟩
  | cons field fields ih =>
      obtain ⟨hfield, hrest⟩ := List.forall_mem_cons.mp hfields
      by_cases hnamed : IsNamed name field
      · rw [List.find?_cons_of_pos (by simpa using hnamed)]
        cases fields with
        | nil =>
            refine ⟨[], .inl rfl, ?_⟩
            have hfirst : mgGetVarFrom name true (field ++ []).length (field ++ [] ++ after) = _ :=
              mgGetVarFrom_first hnamed
            rw [List.append_nil] at hfirst
            rw [formBody, List.intercalate_singleton]
            exact hfirst
        | cons field' fields =>
            refine ⟨38 :: formBody (field' :: fields), .inr rfl, ?_⟩
            rw [formBody_cons]
            exact mgGetVarFrom_first hnamed
      · rw [List.find?_cons_of_neg (by simpa using hnamed)]
        cases fields with
        | nil =>
            refine ⟨[], .inl rfl, ?_⟩
            rw [formBody, List.intercalate_singleton]
            exact mgGetVarFrom_last hfield fun _ ↦ hnamed
        | cons field' fields =>
            obtain ⟨back, hback, heq⟩ := ih hrest
            refine ⟨back, hback, ?_⟩
            rw [← heq, formBody_cons, List.append_assoc, List.cons_append]
            exact mgGetVarFrom_skip hname hfield fun _ ↦ hnamed

end Find

theorem field_of_mem_splitOn (text : List UInt8) :
    ∀ field ∈ text.splitOn 38, 38 ∉ field ∧ field.length ≤ text.length := by
  induction text with
  | nil => simp
  | cons c text ih =>
      rw [List.splitOn_cons_eq_if_modifyHead]
      cases hsplit : text.splitOn 38 with
      | nil => exact absurd hsplit (List.splitOn_ne_nil 38 text)
      | cons field fields =>
          rw [hsplit] at ih
          have hlonger : ∀ field' ∈ field :: fields, 38 ∉ field' ∧
              field'.length ≤ (c :: text).length :=
            fun field' hmem ↦ ⟨(ih field' hmem).1, (ih field' hmem).2.trans (Nat.le_succ _)⟩
          obtain ⟨hfield, hfields⟩ := List.forall_mem_cons.mp hlonger
          split_ifs with hc
          · exact List.forall_mem_cons.mpr ⟨⟨List.not_mem_nil, Nat.zero_le _⟩, hlonger⟩
          · have hhead : 38 ∉ c :: field := by
              refine List.not_mem_cons_of_ne_of_not_mem ?_ hfield.1
              rintro rfl
              exact hc rfl
            have hlength : (c :: field).length ≤ (c :: text).length :=
              Nat.succ_le_succ (ih field List.mem_cons_self).2
            exact List.forall_mem_cons.mpr ⟨⟨hhead, hlength⟩, hfields⟩

/-- `mg_get_var` decodes the value of the first field that has the name, if it has room for it. -/
theorem mgGetVar_eq {name : List UInt8} (hname : 38 ∉ name) (hc : isXDigit c = false)
    (rest text : List UInt8) (dstLen : ℕ) :
    mgGetVar (text ++ c :: rest) text.length name dstLen = some
      (match (text.splitOn 38).find? (IsNamed name) with
        | none => (-1, [])
        | some field =>
            let value := field.drop (name.length + 1)
            if value.length < dstLen then (((decoded value).length : ℤ), decoded value)
            else (-1, [])) := by
  obtain ⟨back, hback, hfrom⟩ := mgGetVarFrom_eq hname (c :: rest)
    fun field hmem ↦ (field_of_mem_splitOn text field hmem).1
  rw [formBody, List.intercalate_splitOn] at hfrom
  unfold mgGetVar
  rw [hfrom]
  cases hfind : (text.splitOn 38).find? (IsNamed name) with
  | none => rfl
  | some field =>
      have hfield := (field_of_mem_splitOn text field (List.mem_of_find?_eq_some hfind)).1
      dsimp only [Option.map_some]
      have hvalue : 38 ∉ field.drop (name.length + 1) := fun hmem ↦ hfield (List.mem_of_mem_drop hmem)
      generalize field.drop (name.length + 1) = value at hvalue
      have hwhile : (value ++ back).takeWhile (· ≠ 38) = value := by
        rw [List.takeWhile_append_of_pos]
        · rcases hback with rfl | hback
          · simp
          · obtain ⟨back, rfl⟩ := List.head?_eq_some_iff.mp hback
            simp
        · intro d hd
          simpa using fun heq : d = 38 ↦ hvalue (heq ▸ hd)
      have hmemory : ∃ d rest', isXDigit d = false ∧
          value ++ back ++ c :: rest = value ++ d :: rest' := by
        rcases hback with rfl | hback
        · exact ⟨c, rest, hc, by rw [List.append_nil]⟩
        · obtain ⟨back, rfl⟩ := List.head?_eq_some_iff.mp hback
          exact ⟨38, back ++ c :: rest, rfl, by rw [List.append_assoc, List.cons_append]⟩
      obtain ⟨d, rest', hd, hmemory⟩ := hmemory
      rw [List.take_left, hwhile, hmemory]
      split_ifs with hroom
      · rw [urlDecode_eq hd (by omega)]
        rfl
      · rfl

/-! ## Reading the body -/

/-- What `pull` returns when at most `len` bytes are asked for, and what is still to come.  Nothing
comes from a connection that was closed. -/
def pull (len : ℕ) : List (List UInt8) → List UInt8 × List (List UInt8)
  | [] => ([], [])
  | chunk :: chunks =>
      (chunk.take len, if chunk.length ≤ len then chunks else chunk.drop len :: chunks)

/-- The loop of `mg_read` that reads from the socket. -/
def pullLoop : ℕ → ℕ → List (List UInt8) → List UInt8
  | 0, _, _ => []
  | turns + 1, len, chunks =>
      let n := (pull len chunks).1
      if len = 0 ∨ n = [] then [] else n ++ pullLoop turns (len - n.length) (pull len chunks).2

/-- `mg_read` for a request that was not read from yet.  What came with its head is in `buffered`. -/
def mgRead (buffered : List UInt8) (contentLen : ℕ) (chunks : List (List UInt8)) (len : ℕ) :
    List UInt8 :=
  if contentLen = 0 then []
  else
    let len := min len contentLen
    let nread := buffered.take len
    nread ++ pullLoop len (len - nread.length) chunks

/-- Each turn of the loop gets one byte at least, unless the connection was closed. -/
theorem pullLoop_eq {turns len : ℕ} (hturns : len ≤ turns) {chunks : List (List UInt8)}
    (hchunks : ∀ chunk ∈ chunks, chunk ≠ []) :
    pullLoop turns len chunks = chunks.flatten.take len := by
  induction turns generalizing len chunks with
  | zero =>
      obtain rfl : len = 0 := by omega
      rfl
  | succ turns ih =>
      cases chunks with
      | nil => simp [pullLoop, pull]
      | cons chunk chunks =>
          obtain ⟨hchunk, hrest⟩ := List.forall_mem_cons.mp hchunks
          have hpos : 0 < chunk.length := List.length_pos_iff.mpr hchunk
          rw [pullLoop]
          by_cases hlen : len = 0
          · simp [hlen]
          have hne : chunk.take len ≠ [] := by simp [hlen, hchunk]
          simp only [pull, hlen, hne, or_self, if_false, List.length_take, List.flatten_cons,
            List.take_append]
          congr 1
          split_ifs with hshort
          · rw [Nat.min_eq_right hshort]
            exact ih (by omega) hrest
          · have hnone : len - min len chunk.length = 0 := by omega
            have hend : len - chunk.length = 0 := by omega
            rw [hnone, hend, List.take_zero]
            cases turns with
            | zero => rfl
            | succ turns => simp [pullLoop]

/-- A body is read in one piece, however it arrives. -/
theorem mgRead_eq (buffered : List UInt8) (contentLen len : ℕ) {chunks : List (List UInt8)}
    (hchunks : ∀ chunk ∈ chunks, chunk ≠ []) :
    mgRead buffered contentLen chunks len =
      (buffered ++ chunks.flatten).take (min len contentLen) := by
  unfold mgRead
  split_ifs with hzero
  · simp [hzero]
  · dsimp only
    rw [pullLoop_eq (Nat.sub_le _ _) hchunks, List.take_append, List.length_take]
    congr 2
    omega

/-! ## Payloads -/

/-- `getJSONPayload` with the bytes that `mg_read` wrote into the buffer of `MAX_WEB_BUFSIZE` bytes.
What it may not read behind the buffer is nothing at all. -/
def getJSONPayload (read param : List UInt8) : Option (Option Json.Value) :=
  (mgGetVar (read ++ List.replicate (65536 - read.length) 0) read.length param read.length).map
    fun var ↦ if var.1 = -1 then none else Json.parse (Json.CString.ofBytes var.2)

/-- What a body says under a name. -/
def payloadOf (read param : List UInt8) : Option Json.Value :=
  ((read.splitOn 38).find? (IsNamed param)).bind fun field ↦
    Json.parse (Json.CString.ofBytes (decoded (field.drop (param.length + 1))))

/-- The payload is what the first field of that name parses to.  There is room for every value, and
a byte behind the body at which decoding stops. -/
theorem getJSONPayload_payloadOf {read param : List UInt8} (hparam : 38 ∉ param)
    (hread : read.length < 65536) : getJSONPayload read param = some (payloadOf read param) := by
  obtain ⟨more, hmore⟩ : ∃ more, 65536 - read.length = more + 1 :=
    Nat.exists_eq_add_of_le' (by omega)
  unfold getJSONPayload payloadOf
  rw [hmore, List.replicate_succ, mgGetVar_eq hparam rfl]
  cases hfind : (read.splitOn 38).find? (IsNamed param) with
  | none => rfl
  | some field =>
      have hlength := (field_of_mem_splitOn read field (List.mem_of_find?_eq_some hfind)).2
      have hnamed : IsNamed param field := by simpa using List.find?_some hfind
      have hlonger := (List.getElem?_eq_some_iff.mp hnamed.1).1
      have hroom : (field.drop (param.length + 1)).length < read.length := by
        rw [List.length_drop]
        omega
      simp only [if_pos hroom, Option.map_some, Option.bind_some]
      rw [if_neg (by omega)]

/-- In whatever pieces a body arrives, the handler gets what the first field of that name parses to,
and nothing of what was sent behind the body. -/
theorem getJSONPayload_pieces {body param : List UInt8} (hparam : 38 ∉ param)
    (hshort : body.length < 65536) {buffered more : List UInt8} {chunks : List (List UInt8)}
    (hchunks : ∀ chunk ∈ chunks, chunk ≠ []) (harrives : buffered ++ chunks.flatten = body ++ more) :
    getJSONPayload (mgRead buffered body.length chunks 65536) param =
      some (payloadOf body param) := by
  rw [mgRead_eq _ _ _ hchunks, harrives, Nat.min_eq_right hshort.le, List.take_left,
    getJSONPayload_payloadOf hparam hshort]

/-- The body q=1&q=2 in three pieces, with a byte behind it. -/
theorem getJSONPayload_pieces_three :
    getJSONPayload (mgRead [113] [113, 61, 49, 38, 113, 61, 50].length
      [[61, 49, 38], [113, 61, 50, 0]] 65536) [113] =
      some (payloadOf [113, 61, 49, 38, 113, 61, 50] [113]) :=
  @getJSONPayload_pieces [113, 61, 49, 38, 113, 61, 50] [113] (by decide) (by decide) [113] [0] _
    (by simp) (by decide)

/-! ## Encoding -/

/-- A text and an encoding of it: characters as they are, `+` for a blank, or two digits. -/
inductive Encodes : List UInt8 → List UInt8 → Prop
  | nil : Encodes [] []
  | plain {c : UInt8} {enc text : List UInt8} (hc : c ≠ 37 ∧ c ≠ 38 ∧ c ≠ 43)
      (h : Encodes enc text) : Encodes (c :: enc) (c :: text)
  | plus {enc text : List UInt8} (h : Encodes enc text) : Encodes (43 :: enc) (32 :: text)
  | percent {a b : UInt8} {enc text : List UInt8} (ha : isXDigit a = true)
      (hb : isXDigit b = true) (h : Encodes enc text) :
      Encodes (37 :: a :: b :: enc) (hexByte a b :: text)

theorem Encodes.decoded {enc text : List UInt8} (h : Encodes enc text) : decoded enc = text := by
  induction h with
  | nil => rfl
  | plain hc _ ih =>
      rw [decoded_plain fun _ _ _ heq ↦ absurd heq hc.1, ih, Web.plain, if_neg hc.2.2]
  | plus _ ih =>
      rw [decoded_plain fun _ _ _ heq ↦ absurd heq (by decide), ih]
      rfl
  | percent ha hb _ ih => rw [decoded_percent ha hb, ih]

theorem Encodes.not_mem {enc text : List UInt8} (h : Encodes enc text) : 38 ∉ enc := by
  have hdigit : ∀ {d : UInt8}, isXDigit d = true → 38 ≠ d := by
    rintro d hd rfl
    cases hd
  induction h with
  | nil => exact List.not_mem_nil
  | plain hc _ ih => exact List.not_mem_cons_of_ne_of_not_mem hc.2.1.symm ih
  | plus _ ih => exact List.not_mem_cons_of_ne_of_not_mem (by decide) ih
  | percent ha hb _ ih =>
      apply List.not_mem_cons_of_ne_of_not_mem (by decide)
      apply List.not_mem_cons_of_ne_of_not_mem (hdigit ha)
      exact List.not_mem_cons_of_ne_of_not_mem (hdigit hb) ih

theorem isNamed_append {param name : List UInt8} (hname : fold name = fold param)
    (value : List UInt8) : IsNamed param (name ++ 61 :: value) := by
  have hlength := length_eq_of_fold hname
  rw [IsNamed, ← hlength, List.getElem?_append_right le_rfl, Nat.sub_self, List.take_left]
  exact ⟨rfl, hname⟩

/-- A handler gets what the client's text parses to, however the client encodes it, in whatever
pieces the request arrives and whatever other fields it has, as long as the payload is the first
field of its name and the body is shorter than the buffer. -/
theorem getJSONPayload_form {param name enc : List UInt8} {text : Json.CString}
    {before after : List (List UInt8)} (hparam : 38 ∉ param) (hname : fold name = fold param)
    (henc : Encodes enc text) (hbefore : ∀ field ∈ before, 38 ∉ field ∧ ¬ IsNamed param field)
    (hafter : ∀ field ∈ after, 38 ∉ field)
    (hshort : (formBody (before ++ (name ++ 61 :: enc) :: after)).length < 65536)
    {buffered more : List UInt8} {chunks : List (List UInt8)}
    (hchunks : ∀ chunk ∈ chunks, chunk ≠ [])
    (harrives : buffered ++ chunks.flatten =
      formBody (before ++ (name ++ 61 :: enc) :: after) ++ more) :
    getJSONPayload (mgRead buffered
        (formBody (before ++ (name ++ 61 :: enc) :: after)).length chunks 65536) param =
      some (Json.parse text) := by
  have hfield : 38 ∉ name ++ 61 :: enc := by
    intro hmem
    rcases List.mem_append.mp hmem with hmem | hmem
    · exact not_mem_of_fold hparam hname hmem
    · exact List.not_mem_cons_of_ne_of_not_mem (by decide) henc.not_mem hmem
  have hfields : ∀ field ∈ before ++ (name ++ 61 :: enc) :: after, 38 ∉ field := by
    intro field hmem
    rcases List.mem_append.mp hmem with hmem | hmem
    · exact (hbefore field hmem).1
    · rcases List.mem_cons.mp hmem with rfl | hmem
      · exact hfield
      · exact hafter field hmem
  have hnone : before.find? (IsNamed param) = none := by
    apply List.find?_eq_none.mpr
    intro field hmem
    simpa using (hbefore field hmem).2
  have hnamed := isNamed_append hname enc
  rw [mgRead_eq _ _ _ hchunks, harrives, Nat.min_eq_right hshort.le, List.take_left,
    getJSONPayload_payloadOf hparam hshort, payloadOf, formBody,
    List.splitOn_intercalate 38 hfields (by simp), List.find?_append, hnone, Option.none_or,
    List.find?_cons_of_pos (by simpa using hnamed), Option.bind_some]
  have hvalue : (name ++ 61 :: enc).drop (param.length + 1) = enc := by
    rw [← length_eq_of_fold hname, List.drop_append]
    simp
  rw [hvalue, henc.decoded, Json.CString.ofBytes_val]

/-- The body x=&Q=%7b+}&q=1, of which three bytes come with the head of the request. -/
theorem getJSONPayload_form_pieces :
    getJSONPayload (mgRead [120, 61, 38]
      (formBody ([[120, 61]] ++ ([81] ++ 61 :: [37, 55, 98, 43, 125]) :: [[113, 61, 49]])).length
      [[81], [61, 37, 55], [98, 43, 125, 38, 113, 61, 49, 0]] 65536) [113] =
      some (Json.parse [123, 32, 125]) := by
  have henc : Encodes [37, 55, 98, 43, 125] [123, 32, 125] :=
    .percent rfl rfl (.plus (.plain (by decide) .nil))
  have hbefore : ∀ field ∈ [[120, 61]], 38 ∉ field ∧ ¬ IsNamed [113] field := by
    intro field hmem
    rw [List.mem_singleton.mp hmem]
    decide
  exact @getJSONPayload_form [113] [81] [37, 55, 98, 43, 125] ⟨[123, 32, 125], by decide⟩
    [[120, 61]] [[113, 61, 49]] (by decide) (by decide) henc hbefore (by simp) (by decide)
    [120, 61, 38] [0] _ (by simp) (by decide)

end HavokMud.Web
