/-
**Foreign characters in the text of a table.**

A table is written with printable characters of one byte, of which the double quote and the
backslash are left out.  The reader looks only for the lower end of that alphabet: a byte below the
space is a fault wherever it stands, but every other foreign byte is taken for some digit.  The
quote is read as the character before it, the backslash as the bracket before it, and the bytes
above the alphabet are digits larger than any that is written.

What is read can be said without the reader.  The bytes of a table fall into the bytes of its
values, and those of a value are digits, the last of which ends it.  A text is a fault exactly if
its bytes do not fall apart that way, and it makes no difference whether some of them are foreign.

Main definitions:

* `Codec.IsDigits`, `Codec.IsValue`, `Codec.IsValues` — what bytes stand for;
* `Codec.codesOf` — the bytes of a text.

Main results:

* `Codec.values_eq_ok_iff` — **the reader reads values from exactly the bytes that stand for them**;
* `Codec.decode_eq_ok_iff` — the same for a table with its count in front;
* `Codec.decode_foreign_fault` — which texts with foreign bytes are a fault;
* `Codec.decode_quote_accepted` — a quote that is taken for a digit.
-/

import IncrementalLR.Proofs.TableTexts

set_option relaxedAutoImplicit false
set_option autoImplicit false

namespace IncrementalLR

namespace Codec

/-! ### What bytes stand for -/

/-- Codes are digits none of which ends a value. -/
inductive IsDigits : List Nat → List Nat → Prop
  | nil : IsDigits [] []
  | cons {codes ds : List Nat} {code d : Nat} : code ≠ bigCode → digitOf? code = some d →
      d < base → IsDigits codes ds → IsDigits (code :: codes) (d :: ds)

/-- Codes continue the number `m` to a value and end it: digits follow, and then a digit that is
raised by the base, or the character that replaces the value. -/
inductive IsValue (m : Nat) : List Nat → Nat → Prop
  | raised {codes ds : List Nat} {last d : Nat} : IsDigits codes ds → last ≠ bigCode →
      digitOf? last = some (d + base) → horner m (ds ++ [d]) ≤ maxWord →
      IsValue m (codes ++ [last]) (horner m (ds ++ [d]))
  | big {codes ds : List Nat} : IsDigits codes ds → (ds ≠ [] → horner m ds ≤ maxWord) →
      IsValue m (codes ++ [bigCode]) bigValue

/-- Codes are those of values one after the other. -/
inductive IsValues : List Nat → List Nat → Prop
  | nil : IsValues [] []
  | cons {codes rest ns : List Nat} {n : Nat} : IsValue 0 codes n → IsValues rest ns →
      IsValues (codes ++ rest) (n :: ns)

theorem horner_cons (m d : Nat) (ds : List Nat) : horner m (d :: ds) = horner (m * base + d) ds :=
  rfl

/-- A digit in front of a value belongs to it. -/
theorem IsValue.cons {m code d n : Nat} {codes : List Nat} (hcode : code ≠ bigCode)
    (hdigit : digitOf? code = some d) (hd : d < base) (hmax : m * base + d ≤ maxWord)
    (h : IsValue (m * base + d) codes n) : IsValue m (code :: codes) n := by
  cases h with
  | raised hcodes hlast hraised hle =>
      exact .raised (.cons hcode hdigit hd hcodes) hlast hraised hle
  | @big codes ds hcodes hle =>
      refine .big (.cons hcode hdigit hd hcodes) fun _ => ?_
      cases ds with
      | nil => exact hmax
      | cons e ds => exact hle (List.cons_ne_nil _ _)

/-! ### Reading -/

theorem values_nil_none (pos : Nat) : values pos none [] = .ok [] := by rw [values]

theorem values_big (pos : Nat) (sofar : Option Nat) (rest : List Nat) :
    values pos sofar (bigCode :: rest) = (bigValue :: ·) <$> values (pos + 1) none rest := by
  cases sofar <;> simp only [values, if_true]

/-- What the reader does at a digit. -/
theorem values_code {pos code d : Nat} {sofar : Option Nat} {rest : List Nat}
    (hcode : code ≠ bigCode) (hdigit : digitOf? code = some d) :
    values pos sofar (code :: rest) =
      let digit := if base ≤ d then d - base else d
      let n := sofar.getD 0 * base + digit
      if maxWord < n then .error .outOfRange
      else if base ≤ d then (n :: ·) <$> values (pos + 1) none rest
      else values (pos + 1) (some n) rest := by
  cases sofar <;> simp only [values, hcode, if_false, hdigit]

theorem map_cons_eq_ok {n : Nat} {x : Except EncodingFault (List Nat)} {ns : List Nat}
    (h : (n :: ·) <$> x = .ok ns) : ∃ ms, x = .ok ms ∧ ns = n :: ms := by
  cases x with
  | error fault => cases h
  | ok ms => exact ⟨ms, rfl, (Except.ok.inj h).symm⟩

/-- What is read stands there: nothing if nothing is left, else the rest of the value that was begun
and further values. -/
theorem values_reads {codes : List Nat} : ∀ {pos : Nat} {sofar : Option Nat} {ns : List Nat},
    values pos sofar codes = .ok ns →
      (codes = [] ∧ sofar = none ∧ ns = []) ∨
      ∃ part rest n ms, codes = part ++ rest ∧ ns = n :: ms ∧
        IsValue (sofar.getD 0) part n ∧ IsValues rest ms := by
  -- the values after one that has ended
  have after : ∀ {rest ms : List Nat},
      (rest = [] ∧ (none : Option Nat) = none ∧ ms = []) ∨
      (∃ part rest' n ms', rest = part ++ rest' ∧ ms = n :: ms' ∧
        IsValue ((none : Option Nat).getD 0) part n ∧ IsValues rest' ms') → IsValues rest ms := by
    rintro rest ms (⟨rfl, -, rfl⟩ | ⟨part, rest', n, ms', rfl, rfl, hvalue, hrest⟩)
    · exact .nil
    · exact .cons hvalue hrest
  induction codes with
  | nil =>
      intro pos sofar ns h
      cases sofar with
      | none => exact Or.inl ⟨rfl, rfl, (Except.ok.inj ((values_nil_none pos).symm.trans h)).symm⟩
      | some n =>
          rw [values] at h
          cases h
  | cons code codes ih =>
      intro pos sofar ns h
      right
      by_cases hcode : code = bigCode
      · subst hcode
        rw [values_big] at h
        obtain ⟨ms, hms, rfl⟩ := map_cons_eq_ok h
        exact ⟨[bigCode], codes, bigValue, ms, rfl, rfl, .big .nil (fun hne => absurd rfl hne),
          after (ih hms)⟩
      · cases hdigit : digitOf? code with
        | none =>
            cases sofar <;> simp [values, hcode, hdigit] at h
        | some d =>
            rw [values_code hcode hdigit] at h
            by_cases hd : base ≤ d
            · -- the digit ends the value
              simp only [hd, if_true] at h
              split at h
              · cases h
              · rename_i hmax
                obtain ⟨ms, hms, rfl⟩ := map_cons_eq_ok h
                refine ⟨[code], codes, _, ms, rfl, rfl, ?_, after (ih hms)⟩
                refine IsValue.raised .nil hcode ?_ (Nat.not_lt.1 hmax)
                rw [hdigit, Nat.sub_add_cancel hd]
            · -- the value goes on
              simp only [hd, if_false] at h
              split at h
              · cases h
              · rename_i hmax
                obtain ⟨-, hsome, -⟩ | ⟨part, rest, n, ms, rfl, rfl, hvalue, hrest⟩ := ih h
                · cases hsome
                · exact ⟨code :: part, rest, n, ms, rfl, rfl,
                    hvalue.cons hcode hdigit (Nat.not_le.1 hd) (Nat.not_lt.1 hmax), hrest⟩

/-- Digits are taken into the number read so far. -/
theorem values_digits {codes ds : List Nat} (h : IsDigits codes ds) :
    ∀ (pos : Nat) (sofar : Option Nat) (tail : List Nat),
      (ds ≠ [] → horner (sofar.getD 0) ds ≤ maxWord) →
      ∃ pos' sofar', sofar'.getD 0 = horner (sofar.getD 0) ds ∧
        values pos sofar (codes ++ tail) = values pos' sofar' tail := by
  induction h with
  | nil => exact fun pos sofar _ _ => ⟨pos, sofar, rfl, rfl⟩
  | @cons codes ds code d hcode hdigit hd _ ih =>
      intro pos sofar tail hmax
      have hle := hmax (List.cons_ne_nil _ _)
      rw [horner_cons] at hle
      have hsmall : sofar.getD 0 * base + d ≤ maxWord := Nat.le_trans (le_horner _ _) hle
      obtain ⟨pos', sofar', hnumber, hread⟩ :=
        ih (pos + 1) (some (sofar.getD 0 * base + d)) tail fun _ => hle
      refine ⟨pos', sofar', hnumber, ?_⟩
      rw [List.cons_append, values_code hcode hdigit]
      simp only [Nat.not_le.2 hd, if_false, Nat.not_lt.2 hsmall]
      exact hread

/-- A value that stands there is read. -/
theorem values_isValue {part : List Nat} {m n : Nat} (h : IsValue m part n) :
    ∀ (pos : Nat) (sofar : Option Nat) (tail : List Nat), sofar.getD 0 = m →
      ∃ pos', values pos sofar (part ++ tail) = (n :: ·) <$> values pos' none tail := by
  intro pos sofar tail hm
  subst hm
  cases h with
  | @raised codes ds last d hcodes hlast hraised hle =>
      have hhorner : horner (sofar.getD 0) (ds ++ [d]) = horner (sofar.getD 0) ds * base + d := by
        simp [horner]
      have hdigits : horner (sofar.getD 0) ds ≤ maxWord := by
        rw [hhorner] at hle
        simp only [base] at hle
        omega
      obtain ⟨pos', sofar', hnumber, hread⟩ :=
        values_digits hcodes pos sofar (last :: tail) fun _ => hdigits
      refine ⟨pos' + 1, ?_⟩
      rw [List.append_assoc, List.singleton_append, hread, values_code hlast hraised]
      rw [hhorner, ← hnumber] at hle ⊢
      simp only [Nat.le_add_left, if_true, Nat.add_sub_cancel, Nat.not_lt.2 hle, if_false]
  | @big codes ds hcodes hle =>
      obtain ⟨pos', sofar', -, hread⟩ :=
        values_digits hcodes pos sofar (bigCode :: tail) hle
      exact ⟨pos' + 1, by rw [List.append_assoc, List.singleton_append, hread, values_big]⟩

theorem IsValues.read {codes ns : List Nat} (h : IsValues codes ns) :
    ∀ pos, values pos none codes = .ok ns := by
  induction h with
  | nil => exact values_nil_none
  | cons hvalue _ ih =>
      intro pos
      obtain ⟨pos', hread⟩ := values_isValue hvalue pos none _ rfl
      rw [hread, ih]
      rfl

/-- **The reader reads values from exactly the codes that stand for them.** -/
theorem values_eq_ok_iff {pos : Nat} {codes ns : List Nat} :
    values pos none codes = .ok ns ↔ IsValues codes ns := by
  refine ⟨fun h => ?_, fun h => h.read pos⟩
  obtain ⟨rfl, -, rfl⟩ | ⟨part, rest, n, ms, rfl, rfl, hvalue, hrest⟩ := values_reads h
  · exact .nil
  · exact .cons hvalue hrest

/-! ### Tables -/

/-- The bytes of a text. -/
def codesOf (s : String) : List Nat := (Text.toBytes s).toList.map (·.toNat)

theorem decode_eq_codesOf (s : String) : decode s = decodeCodes (codesOf s) := rfl

/-- A table is read from the codes of its values with their number in front, or from no codes. -/
theorem decode_eq_ok_iff {s : String} {ns : List Nat} :
    decode s = .ok ns ↔ (codesOf s = [] ∧ ns = []) ∨ IsValues (codesOf s) (ns.length :: ns) := by
  rw [decode_eq_codesOf, decodeCodes]
  cases hread : values 0 none (codesOf s) with
  | error fault =>
      have hnone : ∀ ms, ¬ IsValues (codesOf s) ms := fun ms hms => by
        rw [hms.read] at hread
        cases hread
      refine ⟨fun h => (by cases h), ?_⟩
      rintro (⟨hnil, -⟩ | h)
      · exact absurd (hnil ▸ .nil) (hnone [])
      · exact absurd h (hnone _)
  | ok ms =>
      have hvalues : ∀ ks, IsValues (codesOf s) ks ↔ ks = ms := fun ks => by
        have hreads : values 0 none (codesOf s) = .ok ks ↔ IsValues (codesOf s) ks :=
          values_eq_ok_iff
        rw [← hreads, hread, Except.ok.injEq, eq_comm]
      have hempty : codesOf s = [] ↔ ms = [] := by
        obtain ⟨hnil, -, rfl⟩ | ⟨part, rest, n, ks, hsplit, rfl, hvalue, -⟩ := values_reads hread
        · simp [hnil]
        · rw [hsplit]
          cases hvalue <;> simp
      rw [hvalues, hempty]
      cases ms with
      | nil => simp [eq_comm]
      | cons count rest =>
          simp only [List.cons_ne_nil, false_and, false_or, List.cons.injEq]
          split
          · rename_i hcount
            rw [Except.ok.injEq]
            exact ⟨fun h => ⟨h ▸ hcount, h.symm⟩, fun h => h.2.symm⟩
          · rename_i hcount
            refine ⟨fun h => (by cases h), ?_⟩
            rintro ⟨hlength, rfl⟩
            exact absurd hlength hcount

/-! ### Foreign codes -/

/-- Digits begin at the space. -/
theorem le_of_digitOf? {code d : Nat} (h : digitOf? code = some d) : 32 ≤ code := by
  simp only [digitOf?] at h
  grind

theorem IsDigits.le {codes ds : List Nat} (h : IsDigits codes ds) : ∀ code ∈ codes, 32 ≤ code := by
  induction h with
  | nil => exact fun code hcode => absurd hcode List.not_mem_nil
  | cons _ hdigit _ _ ih => exact List.forall_mem_cons.2 ⟨le_of_digitOf? hdigit, ih⟩

theorem IsValue.le {m n : Nat} {codes : List Nat} (h : IsValue m codes n) :
    ∀ code ∈ codes, 32 ≤ code := by
  cases h with
  | raised hcodes _ hraised _ =>
      exact List.forall_mem_append.2 ⟨hcodes.le, by simpa using le_of_digitOf? hraised⟩
  | big hcodes _ => exact List.forall_mem_append.2 ⟨hcodes.le, by simp [bigCode]⟩

/-- No code below the space is part of a value. -/
theorem IsValues.le {codes ns : List Nat} (h : IsValues codes ns) : ∀ code ∈ codes, 32 ≤ code := by
  induction h with
  | nil => exact fun code hcode => absurd hcode List.not_mem_nil
  | cons hvalue _ ih => exact List.forall_mem_append.2 ⟨hvalue.le, ih⟩

/-- **Which texts with foreign bytes are a fault**: those with a byte below the space always, and of
all texts with foreign bytes exactly those whose bytes do not fall apart into the values of a table,
where a foreign byte from the space on is the digit that its place in the order of codes gives
it. -/
theorem decode_foreign_fault {s : String} (hforeign : ∃ code ∈ codesOf s, ¬ IsPlain code) :
    ((∃ code ∈ codesOf s, code < 32) → ∃ fault, decode s = .error fault) ∧
      ((∃ fault, decode s = .error fault) ↔
        ¬ ∃ ns : List Nat, IsValues (codesOf s) (ns.length :: ns)) := by
  obtain ⟨foreign, hmem, -⟩ := hforeign
  have hne : codesOf s ≠ [] := List.ne_nil_of_mem hmem
  have hfault : (∃ fault, decode s = .error fault) ↔
      ¬ ∃ ns : List Nat, IsValues (codesOf s) (ns.length :: ns) := by
    cases hread : decode s with
    | error fault =>
        refine ⟨fun _ => ?_, fun _ => ⟨fault, rfl⟩⟩
        rintro ⟨ns, hns⟩
        rw [decode_eq_ok_iff.2 (Or.inr hns)] at hread
        cases hread
    | ok ns =>
        refine ⟨fun ⟨fault, h⟩ => (by cases h), fun h => ?_⟩
        obtain ⟨hnil, -⟩ | hns := decode_eq_ok_iff.1 hread
        · exact absurd hnil hne
        · exact absurd ⟨ns, hns⟩ h
  refine ⟨fun ⟨low, hlow, hlt⟩ => hfault.2 ?_, hfault⟩
  rintro ⟨ns, hns⟩
  have := hns.le low hlow
  omega

/-- A line feed at the end of a table is a fault, and there are no values that the bytes fall apart
into. -/
theorem decode_foreign_fault_lineFeed :
    (∃ code ∈ codesOf "PO\n", ¬ IsPlain code) ∧
      (∃ fault, decode "PO\n" = .error fault) ∧
      ¬ ∃ ns : List Nat, IsValues (codesOf "PO\n") (ns.length :: ns) := by
  have hcodes : codesOf "PO\n" = [80, 79, 10] := by decide +kernel
  have hforeign : ∃ code ∈ codesOf "PO\n", ¬ IsPlain code :=
    ⟨10, by rw [hcodes]; decide, fun h => absurd h.1 (by decide)⟩
  obtain ⟨hlow, hiff⟩ := decode_foreign_fault hforeign
  have hfault := hlow ⟨10, by rw [hcodes]; decide, by decide⟩
  exact ⟨hforeign, hfault, hiff.1 hfault⟩

/-- **A quote that is taken for a digit**: the text of a table of one value, with a quote in it, is
read without a fault. -/
theorem decode_quote_accepted :
    ¬ (∀ s : String, (∃ code ∈ codesOf s, ¬ IsPlain code) → ∃ fault, decode s = .error fault) ∧
      decode "P\"P" = .ok [47] := by
  have hcodes : codesOf "P\"P" = [80, 34, 80] := by decide +kernel
  have hread : decode "P\"P" = .ok [47] := by
    rw [decode_eq_codesOf, hcodes]
    rfl
  refine ⟨fun h => ?_, hread⟩
  obtain ⟨fault, hfault⟩ := h "P\"P" ⟨34, by rw [hcodes]; decide, fun h => h.2.2.1 rfl⟩
  rw [hread] at hfault
  cases hfault

end Codec

end IncrementalLR
