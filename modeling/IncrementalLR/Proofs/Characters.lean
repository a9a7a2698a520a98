/-
**Pieces of a text.**

Reading the bytes of a text gives the text back, and so does reading it in pieces, as long as the
pieces begin and end where characters do.  Where characters begin is visible in a single byte: the
bytes inside of a character continue it, and no character starts with such a byte.

Main definitions:

* `Text.encode` — the bytes of a list of characters.

Main results:

* `Text.decodeFrom_encode` — reading bytes of characters, in front of anything;
* `Text.exists_split_of_isBoundary` — boundaries are where characters end;
* `Text.ofSlice_all` — reading all bytes of a text;
* `Text.ofSlice_append` — **two pieces that meet at a boundary join to one**.
-/

import IncrementalLR.Text.Utf8

set_option relaxedAutoImplicit false
set_option autoImplicit false

namespace IncrementalLR

namespace Text

/-- The bytes of a list of characters. -/
def encode (cs : List Char) : List UInt8 := cs.flatMap String.utf8EncodeChar

@[simp] theorem encode_nil : encode [] = [] := rfl

@[simp] theorem encode_cons (c : Char) (cs : List Char) :
    encode (c :: cs) = String.utf8EncodeChar c ++ encode cs := rfl

@[simp] theorem encode_append (cs cs' : List Char) :
    encode (cs ++ cs') = encode cs ++ encode cs' := List.flatMap_append

theorem toList_toBytes (s : String) : (toBytes s).toList = encode s.toList := by
  have hdata : ∀ cs : List Char, (toBytes (String.ofList cs)).toList = encode cs := fun cs => by
    simp [toBytes, encode, List.utf8Encode, String.toUTF8]
  rw [← hdata, String.ofList_toList]

theorem toBytes_eq (s : String) : toBytes s = (encode s.toList).toArray := by
  rw [← toList_toBytes, Array.toArray_toList]

/-! ### Reading -/

theorem toNat_byte {n : Nat} (h : n < 256) : (UInt8.ofNat n).toNat = n := by
  rw [UInt8.toNat_ofNat']
  omega

/-- The last byte of a character. -/
theorem decodeFrom_last {m lo hi value : Nat} (hlo : lo ≤ m % 64 + 128) (hhi : m % 64 + 128 ≤ hi)
    (rest : List UInt8) :
    decodeFrom (some ⟨1, lo, hi, value⟩) (UInt8.ofNat (m % 64 + 128) :: rest) =
      Char.ofNat (value * 64 + m % 64) :: decodeFrom none rest := by
  have hbyte := toNat_byte (n := m % 64 + 128) (by omega)
  have hbits : (m % 64 + 128) % 64 = m % 64 := by omega
  rw [decodeFrom, hbyte, if_pos ⟨hlo, hhi⟩, Pending.next, hbyte, if_pos (Nat.le_refl 1), hbits]

/-- A byte inside of a character. -/
theorem decodeFrom_inner {m lo hi value owed : Nat} (hlo : lo ≤ m % 64 + 128)
    (hhi : m % 64 + 128 ≤ hi) (rest : List UInt8) :
    decodeFrom (some ⟨owed + 2, lo, hi, value⟩) (UInt8.ofNat (m % 64 + 128) :: rest) =
      decodeFrom (some ⟨owed + 1, 0x80, 0xbf, value * 64 + m % 64⟩) rest := by
  have hbyte := toNat_byte (n := m % 64 + 128) (by omega)
  have hbits : (m % 64 + 128) % 64 = m % 64 := by omega
  rw [decodeFrom, hbyte, if_pos ⟨hlo, hhi⟩, Pending.next, hbyte, if_neg (by simp), hbits]
  rfl

/-- The first of two bytes; smaller codes have one byte. -/
theorem decodeFrom_two {n : Nat} (hlo : 2 ≤ n) (hhi : n < 32) (rest : List UInt8) :
    decodeFrom none (UInt8.ofNat (n + 192) :: rest) =
      decodeFrom (some ⟨1, 0x80, 0xbf, n⟩) rest := by
  have hlead : lead (UInt8.ofNat (n + 192)) = .pending ⟨1, 0x80, 0xbf, n⟩ := by
    rw [lead, toNat_byte (by omega), if_neg (by omega), if_neg (by omega), if_pos (by omega),
      Nat.add_sub_cancel]
  rw [decodeFrom, hlead]

/-- The first of three bytes; the second one is bounded, for smaller codes have two bytes and some
codes are no characters. -/
theorem decodeFrom_three {n : Nat} (hhi : n < 16) (rest : List UInt8) :
    decodeFrom none (UInt8.ofNat (n + 224) :: rest) =
      decodeFrom (some ⟨2, if n = 0 then 0xa0 else 0x80, if n = 13 then 0x9f else 0xbf, n⟩)
        rest := by
  have hlead : lead (UInt8.ofNat (n + 224)) =
      .pending ⟨2, if n = 0 then 0xa0 else 0x80, if n = 13 then 0x9f else 0xbf, n⟩ := by
    rw [lead, toNat_byte (by omega), if_neg (by omega), if_neg (by omega), if_neg (by omega),
      if_pos (by omega), Nat.add_sub_cancel]
    simp only [show n + 224 = 0xe0 ↔ n = 0 by omega, show n + 224 = 0xed ↔ n = 13 by omega]
  rw [decodeFrom, hlead]

/-- The first of four bytes; the second one is bounded, for smaller codes have three bytes and
larger ones none. -/
theorem decodeFrom_four {n : Nat} (hhi : n < 5) (rest : List UInt8) :
    decodeFrom none (UInt8.ofNat (n + 240) :: rest) =
      decodeFrom (some ⟨3, if n = 0 then 0x90 else 0x80, if n = 4 then 0x8f else 0xbf, n⟩)
        rest := by
  have hlead : lead (UInt8.ofNat (n + 240)) =
      .pending ⟨3, if n = 0 then 0x90 else 0x80, if n = 4 then 0x8f else 0xbf, n⟩ := by
    rw [lead, toNat_byte (by omega), if_neg (by omega), if_neg (by omega), if_neg (by omega),
      if_neg (by omega), if_pos (by omega), Nat.add_sub_cancel]
    simp only [show n + 240 = 0xf0 ↔ n = 0 by omega, show n + 240 = 0xf4 ↔ n = 4 by omega]
  rw [decodeFrom, hlead]

/-- **A character is read from its bytes**, in front of anything. -/
theorem decodeFrom_encodeChar (c : Char) (rest : List UInt8) :
    decodeFrom none (String.utf8EncodeChar c ++ rest) = c :: decodeFrom none rest := by
  have hvalid : c.val.toNat < 0xd800 ∨ 0xdfff < c.val.toNat ∧ c.val.toNat < 0x110000 := c.valid
  have hc : Char.ofNat c.val.toNat = c := Char.ofNat_toNat c
  rw [String.utf8EncodeChar]
  generalize c.val.toNat = v at hvalid hc
  subst hc
  -- one case for each number of bytes
  split
  · rw [List.singleton_append, decodeFrom, lead, toNat_byte (by omega), if_pos (by omega)]
  split
  · have hcode : v / 64 % 32 * 64 + v % 64 = v := by omega
    simp only [List.cons_append, List.nil_append]
    rw [decodeFrom_two (by omega) (by omega), decodeFrom_last (by omega) (by omega), hcode]
  split
  · have hcode : (v / 4096 % 16 * 64 + v / 64 % 64) * 64 + v % 64 = v := by omega
    simp only [List.cons_append, List.nil_append]
    rw [decodeFrom_three (by omega), decodeFrom_inner (by split <;> omega) (by split <;> omega),
      decodeFrom_last (by omega) (by omega), hcode]
  · have hcode : ((v / 262144 % 8 * 64 + v / 4096 % 64) * 64 + v / 64 % 64) * 64 + v % 64 = v := by
      omega
    simp only [List.cons_append, List.nil_append]
    rw [decodeFrom_four (by omega), decodeFrom_inner (by split <;> omega) (by split <;> omega),
      decodeFrom_inner (by omega) (by omega), decodeFrom_last (by omega) (by omega), hcode]

/-- **Bytes of characters are read as these characters.** -/
theorem decodeFrom_encode (cs : List Char) (rest : List UInt8) :
    decodeFrom none (encode cs ++ rest) = cs ++ decodeFrom none rest := by
  induction cs with
  | nil => rfl
  | cons c cs ih => rw [encode_cons, List.append_assoc, decodeFrom_encodeChar, ih, List.cons_append]

theorem ofBytes_encode (cs : List Char) : ofBytes (encode cs) = String.ofList cs := by
  have key := decodeFrom_encode cs []
  rw [List.append_nil, decodeFrom, List.append_nil] at key
  rw [ofBytes, key]

/-! ### Boundaries -/

/-- The bytes of a character behind the first one continue it. -/
theorem isContinuation_of_getElem? {c : Char} {i : Nat} {b : UInt8} (hi : i ≠ 0)
    (hb : (String.utf8EncodeChar c)[i]? = some b) : isContinuation b = true := by
  have hmem : b ∈ (String.utf8EncodeChar c).tail := by
    obtain ⟨j, rfl⟩ := Nat.exists_eq_succ_of_ne_zero hi
    rw [← List.getElem?_tail] at hb
    exact List.mem_of_getElem? hb
  have key : ∀ n : Nat, isContinuation (UInt8.ofNat (n % 64 + 128)) = true := fun n => by
    rw [isContinuation, toNat_byte (by omega), Bool.and_eq_true, decide_eq_true_eq,
      decide_eq_true_eq]
    omega
  rw [String.utf8EncodeChar] at hmem
  generalize c.val.toNat = v at hmem
  split at hmem
  · cases hmem
  split at hmem
  · obtain rfl := List.mem_singleton.1 hmem
    exact key _
  split at hmem <;> simp only [List.tail_cons, List.mem_cons, List.not_mem_nil, or_false] at hmem
  · rcases hmem with rfl | rfl <;> exact key _
  · rcases hmem with rfl | rfl | rfl <;> exact key _

/-- **Boundaries are where characters end.** -/
theorem exists_split_of_isBoundary {cs : List Char} {i : Nat}
    (h : isBoundary (encode cs).toArray i = true) :
    ∃ before after, cs = before ++ after ∧ (encode before).length = i := by
  induction cs generalizing i with
  | nil =>
      have hi : i = 0 := by simpa [isBoundary] using h
      exact ⟨[], [], rfl, hi.symm⟩
  | cons c cs ih =>
      by_cases hi : i = 0
      · exact ⟨[], c :: cs, rfl, hi.symm⟩
      rw [isBoundary, List.getElem?_toArray, encode_cons, List.getElem?_append] at h
      by_cases hlt : i < (String.utf8EncodeChar c).length
      · -- inside of the first character
        rw [if_pos hlt, List.getElem?_eq_getElem hlt] at h
        have := isContinuation_of_getElem? hi (List.getElem?_eq_getElem hlt)
        simp [hi, this] at h
      · rw [if_neg hlt] at h
        obtain ⟨before, after, rfl, hlength⟩ :=
          ih (i := i - (String.utf8EncodeChar c).length) (by
            rw [isBoundary, List.getElem?_toArray]
            split at h <;> simp_all)
        refine ⟨c :: before, after, rfl, ?_⟩
        rw [encode_cons, List.length_append, hlength]
        omega

/-! ### Pieces -/

/-- **Reading all bytes of a text gives the text.** -/
theorem ofSlice_all (s : String) : ofSlice (toBytes s) 0 (toBytes s).size = s := by
  rw [ofSlice, Array.extract_size, toList_toBytes, ofBytes_encode, String.ofList_toList]

theorem ofSlice_self (bytes : Array UInt8) (i : Nat) : ofSlice bytes i i = "" := by
  rw [ofSlice, Array.extract_empty_of_stop_le_start (Nat.le_refl i)]
  rfl

theorem isBoundary_zero (s : String) : isBoundary (toBytes s) 0 = true := by
  rw [isBoundary]
  split <;> simp_all

/-- A piece between two boundaries holds characters. -/
theorem exists_chars {s : String} {i j : Nat} (hle : i ≤ j) (hi : isBoundary (toBytes s) i = true)
    (hj : isBoundary (toBytes s) j = true) :
    ∃ cs, ((toBytes s).extract i j).toList = encode cs := by
  rw [toBytes_eq] at hi hj
  obtain ⟨before, after, hsplit, rfl⟩ := exists_split_of_isBoundary hi
  obtain ⟨before', after', hsplit', rfl⟩ := exists_split_of_isBoundary hj
  rw [Array.toList_extract, toList_toBytes, List.extract_eq_take_drop]
  rcases List.prefix_or_prefix_of_prefix (List.prefix_append before after)
    (hsplit ▸ hsplit' ▸ List.prefix_append before' after') with hprefix | hprefix
  · obtain ⟨cs, rfl⟩ := hprefix
    refine ⟨cs, ?_⟩
    rw [hsplit', List.append_assoc, encode_append, encode_append, encode_append, List.drop_left,
      List.length_append, Nat.add_sub_cancel_left, List.take_left]
  · obtain ⟨cs, rfl⟩ := hprefix
    refine ⟨[], ?_⟩
    rw [encode_append, List.length_append] at hle
    rw [encode_nil, List.take_eq_nil_iff]
    left
    rw [encode_append, List.length_append]
    omega

/-- **Two pieces that meet at a boundary join to one.** -/
theorem ofSlice_append {s : String} {i j k : Nat} (hij : i ≤ j) (hjk : j ≤ k)
    (hi : isBoundary (toBytes s) i = true) (hj : isBoundary (toBytes s) j = true) :
    ofSlice (toBytes s) i j ++ ofSlice (toBytes s) j k = ofSlice (toBytes s) i k := by
  obtain ⟨cs, hcs⟩ := exists_chars hij hi hj
  have hjoin : (toBytes s).extract i k = (toBytes s).extract i j ++ (toBytes s).extract j k := by
    rw [Array.extract_append_extract, Nat.min_eq_left hij, Nat.max_eq_right hjk]
  rw [ofSlice, ofSlice, ofSlice, hjoin, Array.toList_append, hcs, ofBytes_encode, ofBytes, ofBytes,
    decodeFrom_encode, String.ofList_append]

end Text

end IncrementalLR
