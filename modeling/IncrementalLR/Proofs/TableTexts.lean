/-
**Written tables are read back.**

A table is written with the number of its values in front, each value as digits whose last one is
raised.  The digits of a value are read back to it, because reading is the same evaluation by powers
of the base that writing takes apart, and nothing that was written before a value is left over when
it begins.  All characters are printable ones of a single byte, so the bytes of the text are the
codes that were written.

A parser asks its tables for their values only, so it does not matter in which of the two forms they
are given.

Main definitions:

* `Codec.horner` — the number that digits stand for;
* `WrittenTable.Recoded`, `WrittenTables.Recoded` — tables some of which were turned into text.

Main results:

* `Codec.values_valueCodes` — a written value is read in front of anything;
* `Codec.toBytes_encode` — the bytes of the text are the codes;
* `Parser.ofWritten_recoded` — a parser does not depend on the form of its tables;
* `Codec.decode_encode` — **a table is read back from its text**.
-/

import IncrementalLR.Proofs.Layouts

set_option relaxedAutoImplicit false
set_option autoImplicit false

namespace IncrementalLR

namespace Codec

/-! ### Digits -/

/-- The number that digits stand for behind a number that was read already. -/
def horner (n : Nat) (ds : List Nat) : Nat := ds.foldl (fun m d => m * base + d) n

theorem le_horner (n : Nat) (ds : List Nat) : n ≤ horner n ds := by
  induction ds generalizing n with
  | nil => exact Nat.le_refl _
  | cons d ds ih =>
      refine Nat.le_trans ?_ (ih (n * base + d))
      simp only [base]
      omega

/-- The digits of a number stand for it. -/
theorem horner_digitsF {fuel n : Nat} (h : n < fuel) (rest : List Nat) :
    horner 0 (digitsF fuel n rest) = horner n rest := by
  induction fuel generalizing n rest with
  | zero => omega
  | succ fuel ih =>
      have hsplit : n / base * base + n % base = n := Nat.div_add_mod' n base
      rw [digitsF]
      split
      · rename_i hzero
        rw [hzero, Nat.zero_mul, Nat.zero_add] at hsplit
        rw [horner, List.foldl_cons, Nat.zero_mul, Nat.zero_add, hsplit]
        rfl
      · have hlt : n / base < fuel := by
          simp only [base] at *
          omega
        rw [ih hlt, horner, List.foldl_cons, hsplit]
        rfl

theorem horner_digits (n : Nat) : horner 0 (digits n) = n :=
  horner_digitsF (Nat.lt_succ_self n) []

theorem digitsF_lt (fuel n : Nat) {rest : List Nat} (h : ∀ d ∈ rest, d < base) :
    ∀ d ∈ digitsF fuel n rest, d < base := by
  induction fuel generalizing n rest with
  | zero => exact h
  | succ fuel ih =>
      have hcons : ∀ d ∈ n % base :: rest, d < base :=
        List.forall_mem_cons.2 ⟨Nat.mod_lt n (by decide), h⟩
      rw [digitsF]
      split
      · exact hcons
      · exact ih _ hcons

theorem digits_lt (n : Nat) : ∀ d ∈ digits n, d < base :=
  digitsF_lt _ _ fun _ hd => absurd hd List.not_mem_nil

theorem digitsF_ne_nil (fuel n : Nat) {rest : List Nat} (h : rest ≠ []) :
    digitsF fuel n rest ≠ [] := by
  induction fuel generalizing n rest with
  | zero => exact h
  | succ fuel ih =>
      rw [digitsF]
      split
      · exact List.cons_ne_nil _ _
      · exact ih _ (List.cons_ne_nil _ _)

theorem digits_ne_nil (n : Nat) : digits n ≠ [] := by
  rw [digits, digitsF]
  split
  · exact List.cons_ne_nil _ _
  · exact digitsF_ne_nil _ _ (List.cons_ne_nil _ _)

/-! ### Codes -/

/-- The codes that texts are made of: printable, and neither the double quote nor the backslash. -/
def IsPlain (code : Nat) : Prop := 32 ≤ code ∧ code ≤ 126 ∧ code ≠ 34 ∧ code ≠ 92

theorem digitCode_bounds {d : Nat} (h : d < 92) :
    IsPlain (digitCode d) ∧ digitCode d ≠ bigCode := by
  simp only [IsPlain, digitCode, bigCode]
  grind

theorem isPlain_closeDigits {ds : List Nat} (h : ∀ d ∈ ds, d < base) :
    ∀ code ∈ closeDigits ds, IsPlain code := by
  simp only [base] at h
  induction ds with
  | nil => exact fun code hcode => absurd hcode List.not_mem_nil
  | cons d ds ih =>
      obtain ⟨hd, hds⟩ := List.forall_mem_cons.1 h
      cases ds with
      | nil =>
          intro code hcode
          obtain rfl := List.mem_singleton.1 hcode
          exact (digitCode_bounds (by simp only [base]; omega)).1
      | cons e ds =>
          rw [closeDigits]
          · exact List.forall_mem_cons.2 ⟨(digitCode_bounds (by omega)).1, ih hds⟩
          · exact List.cons_ne_nil _ _

theorem isPlain_valueCodes (n : Nat) : ∀ code ∈ valueCodes n, IsPlain code := by
  rw [valueCodes]
  split
  · intro code hcode
    obtain rfl := List.mem_singleton.1 hcode
    exact ⟨by decide, by decide, by decide, by decide⟩
  · exact isPlain_closeDigits (digits_lt n)

theorem isPlain_tableCodes (values : List Nat) : ∀ code ∈ tableCodes values, IsPlain code := by
  intro code hcode
  rcases List.mem_append.1 hcode with hcode | hcode
  · exact isPlain_valueCodes _ code hcode
  · obtain ⟨n, -, hcode⟩ := List.mem_flatMap.1 hcode
    exact isPlain_valueCodes n code hcode

/-! ### Reading values -/

/-- A digit that does not end its value is taken into the number read so far. -/
theorem values_digit {pos d n : Nat} {sofar : Option Nat} {rest : List Nat} (hd : d < base)
    (hn : sofar.getD 0 * base + d = n) (hmax : n ≤ maxWord) :
    values pos sofar (digitCode d :: rest) = values (pos + 1) (some n) rest := by
  have hd' : d < 46 := hd
  have hcode := (digitCode_bounds (d := d) (by omega)).2
  cases sofar <;>
    simp only [values, hcode, if_false, digitOf?_digitCode, Nat.not_le.2 hd, hn, Nat.not_lt.2 hmax]

/-- The last digit of a value closes it. -/
theorem values_lastDigit {pos d n : Nat} {sofar : Option Nat} {rest : List Nat} (hd : d < base)
    (hn : sofar.getD 0 * base + d = n) (hmax : n ≤ maxWord) :
    values pos sofar (digitCode (d + base) :: rest) = (n :: ·) <$> values (pos + 1) none rest := by
  have hd' : d < 46 := hd
  have hcode := (digitCode_bounds (d := d + base) (by simp only [base]; omega)).2
  cases sofar <;>
    simp only [values, hcode, if_false, digitOf?_digitCode, Nat.le_add_left, if_true,
      Nat.add_sub_cancel, hn, Nat.not_lt.2 hmax]

/-- The digits of a value are read to the number that they stand for. -/
theorem values_closeDigits {ds rest : List Nat} {pos : Nat} {sofar : Option Nat} (hne : ds ≠ [])
    (hds : ∀ d ∈ ds, d < base) (hmax : horner (sofar.getD 0) ds ≤ maxWord) :
    values pos sofar (closeDigits ds ++ rest) =
      (horner (sofar.getD 0) ds :: ·) <$> values (pos + ds.length) none rest := by
  induction ds generalizing pos sofar with
  | nil => exact absurd rfl hne
  | cons d ds ih =>
      obtain ⟨hd, hds⟩ := List.forall_mem_cons.1 hds
      cases ds with
      | nil => exact values_lastDigit hd rfl hmax
      | cons e ds =>
          have hle := le_horner (sofar.getD 0 * base + d) (e :: ds)
          have key : values (pos + 1) (some (sofar.getD 0 * base + d))
              (closeDigits (e :: ds) ++ rest) = _ := ih (List.cons_ne_nil _ _) hds hmax
          rw [closeDigits, List.cons_append, values_digit hd rfl (Nat.le_trans hle hmax), key]
          · rw [List.length_cons, Nat.add_assoc, Nat.add_comm 1]
            rfl
          · exact List.cons_ne_nil _ _

/-- **A written value is read in front of anything.** -/
theorem values_valueCodes {n pos : Nat} (hn : n ≤ maxWord) (rest : List Nat) :
    values pos none (valueCodes n ++ rest) =
      (n :: ·) <$> values (pos + (valueCodes n).length) none rest := by
  have hlength : ∀ ds : List Nat, (closeDigits ds).length = ds.length := by
    intro ds
    fun_induction closeDigits ds with
    | case1 => rfl
    | case2 => rfl
    | case3 d rest _ ih => rw [List.length_cons, ih, List.length_cons]
  unfold valueCodes
  split
  · rename_i hbig
    rw [hbig]
    rfl
  · have hmax : horner ((none : Option Nat).getD 0) (digits n) ≤ maxWord := by
      rwa [Option.getD_none, horner_digits]
    rw [values_closeDigits (digits_ne_nil n) (digits_lt n) hmax, Option.getD_none, horner_digits,
      hlength]

theorem values_flatMap {ns : List Nat} (h : ∀ n ∈ ns, n ≤ maxWord) (pos : Nat) :
    values pos none (ns.flatMap valueCodes) = .ok ns := by
  induction ns generalizing pos with
  | nil => rfl
  | cons n ns ih =>
      obtain ⟨hn, hns⟩ := List.forall_mem_cons.1 h
      rw [List.flatMap_cons, values_valueCodes hn, ih hns]
      rfl

/-- The codes of a table are read back to it. -/
theorem decodeCodes_tableCodes {ns : List Nat} (h : ∀ n ∈ ns, n ≤ maxWord)
    (hlength : ns.length ≤ maxWord) : decodeCodes (tableCodes ns) = .ok ns := by
  have hcount : ns.length % 4294967296 = ns.length := Nat.mod_eq_of_lt (Nat.lt_succ_of_le hlength)
  have hread : values 0 none (tableCodes ns) = .ok (ns.length :: ns) := by
    rw [tableCodes, hcount, values_valueCodes hlength, values_flatMap h]
    rfl
  rw [decodeCodes, hread]
  simp

/-! ### Texts -/

theorem toNat_ofNat_of_isPlain {code : Nat} (h : IsPlain code) :
    (Char.ofNat code).toNat = code := by
  obtain ⟨-, hle, -⟩ := h
  rw [Char.ofNat, dif_pos (Or.inl (by omega))]
  rfl

/-- The characters of a text that stand for plain codes. -/
theorem utf8EncodeChar_ofNat {code : Nat} (h : IsPlain code) :
    String.utf8EncodeChar (Char.ofNat code) = [UInt8.ofNat code] := by
  have hval : (Char.ofNat code).val.toNat = code := toNat_ofNat_of_isPlain h
  obtain ⟨-, hle, -⟩ := h
  simp [String.utf8EncodeChar, hval, show code ≤ 127 by omega]

/-- **The bytes of the text are the codes.** -/
theorem toBytes_encode (ns : List Nat) :
    (Text.toBytes (encode ns)).toList.map (·.toNat) = tableCodes ns := by
  have hplain := isPlain_tableCodes ns
  have hbytes : (Text.toBytes (encode ns)).toList =
      ((tableCodes ns).map Char.ofNat).flatMap String.utf8EncodeChar := by
    simp [Text.toBytes, encode, List.utf8Encode, String.toUTF8]
  rw [hbytes]
  generalize tableCodes ns = codes at hplain ⊢
  induction codes with
  | nil => rfl
  | cons code codes ih =>
      obtain ⟨hcode, hcodes⟩ := List.forall_mem_cons.1 hplain
      have hsmall : code < 256 := by
        have := hcode.2.1
        omega
      rw [List.map_cons, List.flatMap_cons, List.map_append, utf8EncodeChar_ofNat hcode, ih hcodes]
      simp [Nat.mod_eq_of_lt hsmall]

/-- The text of a table is read back. -/
theorem decode_text {ns : List Nat} (h : ∀ n ∈ ns, n ≤ maxWord) (hlength : ns.length ≤ maxWord) :
    decode (encode ns) = .ok ns := by
  rw [decode, toBytes_encode, decodeCodes_tableCodes h hlength]

/-- The characters of the text are plain. -/
theorem isPlain_encode (ns : List Nat) : ∀ c ∈ (encode ns).toList, IsPlain c.toNat := by
  intro c hc
  rw [encode, String.toList_ofList] at hc
  obtain ⟨code, hcode, rfl⟩ := List.mem_map.1 hc
  have hplain := isPlain_tableCodes ns code hcode
  rwa [toNat_ofNat_of_isPlain hplain]

/-- Only values of 16 bits pass as such, and they pass unchanged. -/
theorem narrow_eq_ok_iff {ns ms : List Nat} : narrow ns = .ok ms ↔ ms = ns ∧ Narrow ns := by
  constructor
  · intro h
    induction ns generalizing ms with
    | nil => exact ⟨(Except.ok.inj h).symm, .nil⟩
    | cons n ns ih =>
        rw [narrow] at h
        split at h
        · cases h
        · rename_i hn
          cases hrest : narrow ns with
          | error fault =>
              rw [hrest] at h
              cases h
          | ok ks =>
              rw [hrest] at h
              obtain rfl := Except.ok.inj h
              obtain ⟨rfl, hnarrow⟩ := ih hrest
              exact ⟨rfl, .cons (Nat.not_lt.1 hn) hnarrow⟩
  · rintro ⟨rfl, h⟩
    exact h.narrow_eq

end Codec

/-! ### The form of tables -/

/-- The same table, or its text in place of its values, which are as many and as large as a text
can hold. -/
inductive WrittenTable.Recoded : WrittenTable → WrittenTable → Prop
  | same (t : WrittenTable) : Recoded t t
  | text {values : List Nat} : (∀ n ∈ values, n ≤ maxWord) → values.length ≤ maxWord →
      Recoded (.raw values) (.encoded (Codec.encode values))

theorem WrittenTable.Recoded.values_eq {t t' : WrittenTable} (h : t.Recoded t') :
    t'.values = t.values := by
  cases h with
  | same t => rfl
  | text hvalues hlength =>
      rw [values, Codec.decode_text hvalues hlength]
      rfl

theorem WrittenTable.Recoded.narrowValues_eq {t t' : WrittenTable} (h : t.Recoded t') :
    t'.narrowValues = t.narrowValues := by
  rw [narrowValues, h.values_eq]
  rfl

/-- Tables any of which may have been turned into text. -/
structure WrittenTables.Recoded (t t' : WrittenTables) : Prop where
  states : t.states.Recoded t'.states
  data : t.data.Recoded t'.data
  gotos : t.gotos.Recoded t'.gotos
  tokens : t.tokens.Recoded t'.tokens
  dialects : t'.dialects = t.dialects
  precedence : t'.precedence = t.precedence

/-- A parser does not depend on the form of its tables, and neither does the reason why there is
none. -/
theorem Parser.ofWritten_recoded (epoch : Nat) (w : WrittenParser) {tables : WrittenTables}
    (h : w.tables.Recoded tables) :
    Parser.ofWritten epoch { w with tables } = Parser.ofWritten epoch w := by
  simp only [Parser.ofWritten, h.states.values_eq, h.data.narrowValues_eq, h.gotos.narrowValues_eq,
    h.tokens.narrowValues_eq, h.dialects, h.precedence]
  rfl

namespace Codec

/-- **A table is read back from its text.**  The text consists of printable characters other than
the double quote and the backslash.  As a table of 16-bit values it can be read if and only if all
values have 16 bits, and then it is the same table.  So a parser is the same, or fails to be one for
the same reason, if any of its tables is given as text. -/
theorem decode_encode :
    (∀ ns : List Nat, (∀ n ∈ ns, n ≤ maxWord) → ns.length < 4294967296 →
      decode (encode ns) = .ok ns ∧
      (∀ c ∈ (encode ns).toList, 32 ≤ c.toNat ∧ c.toNat ≤ 126 ∧ c ≠ '"' ∧ c ≠ '\\') ∧
      ∀ ms, decodeNarrow (encode ns) = .ok ms ↔ ms = ns ∧ ∀ n ∈ ns, n ≤ 65535) ∧
    ∀ (epoch : Nat) (w : WrittenParser) (tables : WrittenTables), w.tables.Recoded tables →
      Parser.ofWritten epoch { w with tables } = Parser.ofWritten epoch w := by
  refine ⟨fun ns hns hlength => ?_, fun epoch w tables h => Parser.ofWritten_recoded epoch w h⟩
  have hdecode := decode_text hns (Nat.le_of_lt_succ hlength)
  refine ⟨hdecode, fun c hc => ?_, fun ms => ?_⟩
  · obtain ⟨hlo, hhi, hquote, hslash⟩ := isPlain_encode ns c hc
    refine ⟨hlo, hhi, ?_, ?_⟩
    · rintro rfl
      exact hquote rfl
    · rintro rfl
      exact hslash rfl
  · have hnarrow : decodeNarrow (encode ns) = narrow ns := by
      rw [decodeNarrow, hdecode]
      rfl
    rw [hnarrow]
    exact narrow_eq_ok_iff

/-- Values around the widths of one, two and three digits, and the largest values. -/
def boundaryValues : List Nat := [0, 45, 46, 2115, 2116, 65534, 65535, 65536, 4294967295]

/-- A parser whose lists are those values as far as they have 16 bits. -/
def boundaryParser : WrittenParser :=
  { tables := { data := .raw (boundaryValues.take 7), gotos := .raw [65535] },
    nodeNames := "⚠ Top", topRules := .ofList [("Top", (0, 1))] }

/-- The values are read back, not as values of 16 bits though; and the parser can be given by a
text. -/
theorem decode_encode_boundaries :
    decode (encode boundaryValues) = .ok boundaryValues ∧
    decodeNarrow (encode boundaryValues) ≠ .ok boundaryValues ∧
    decodeNarrow (encode (boundaryValues.take 7)) = .ok (boundaryValues.take 7) ∧
    Parser.ofWritten 1 { boundaryParser with
      tables := { data := .encoded (encode (boundaryValues.take 7)), gotos := .raw [65535] } } =
      Parser.ofWritten 1 boundaryParser := by
  obtain ⟨hread, hform⟩ := decode_encode
  obtain ⟨hwide, -, hwideNarrow⟩ := hread boundaryValues (by decide) (by decide)
  obtain ⟨-, -, hnarrow⟩ := hread (boundaryValues.take 7) (by decide) (by decide)
  refine ⟨hwide, fun h => ?_, (hnarrow _).2 ⟨rfl, by decide⟩, hform 1 boundaryParser _ ?_⟩
  · exact absurd ((hwideNarrow _).1 h).2 (by decide)
  · exact ⟨.same _, .text (by decide) (by decide), .same _, .same _, rfl, rfl⟩

end Codec

end IncrementalLR
