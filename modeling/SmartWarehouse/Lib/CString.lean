/-
  C strings in fixed buffers, and decimal numerals.

  A buffer is its list of bytes, a byte the character of its code. `cstr` is the text up to the
  first terminator and `putText` stores a text with its terminator (`cstr_putText`). What is
  written at other indices than the last keeps a buffer terminated (`Terminated.set`). Numerals
  are those of `Nat.toDigits`: reading one back gives the number (`Nat.ofDigitChars`), and none
  has a leading zero (`head_toDigits`).
-/
import Mathlib.Data.List.TakeWhile

namespace SmartWarehouse.Lib

/-- The terminator of a C string. -/
def nul : Char := Char.ofNat 0

/-- The text in a buffer. -/
def cstr (buf : List Char) : List Char := buf.takeWhile fun c => c ≠ nul

/-- The buffer after a text and its terminator are stored at its start. -/
def putText (text buf : List Char) : List Char := text ++ nul :: buf.drop (text.length + 1)

/-- The last byte of the buffer is a terminator. -/
def Terminated (buf : List Char) : Prop := buf.getLast? = some nul

theorem cstr_append_nul (text rest : List Char) : cstr (text ++ nul :: rest) = cstr text := by
  unfold cstr
  induction text with
  | nil => simp
  | cons c text ih =>
    rw [List.cons_append, List.takeWhile_cons, List.takeWhile_cons, ih]

theorem cstr_append_of_mem {text : List Char} (h : nul ∈ text) (rest : List Char) :
    cstr (text ++ rest) = cstr text := by
  obtain ⟨pre, post, rfl⟩ := List.append_of_mem h
  rw [List.append_assoc, List.cons_append, cstr_append_nul, cstr_append_nul]

theorem cstr_append_of_not_mem {text : List Char} (h : nul ∉ text) (rest : List Char) :
    cstr (text ++ rest) = text ++ cstr rest := by
  unfold cstr
  apply List.takeWhile_append_of_pos
  intro c hc
  have hne : c ≠ nul := fun heq => h (heq ▸ hc)
  simpa using hne

theorem nul_not_mem_cstr (buf : List Char) : nul ∉ cstr buf := by
  intro h
  have hne := List.mem_takeWhile_imp h
  simp at hne

theorem cstr_of_not_mem {text : List Char} (h : nul ∉ text) : cstr text = text := by
  unfold cstr
  apply List.takeWhile_eq_self_iff.mpr
  intro c hc
  have hne : c ≠ nul := fun heq => h (heq ▸ hc)
  simpa using hne

theorem cstr_putText {text : List Char} (h : nul ∉ text) (buf : List Char) :
    cstr (putText text buf) = text := by
  unfold putText
  rw [cstr_append_nul, cstr_of_not_mem h]

theorem length_putText {text buf : List Char} (h : text.length < buf.length) :
    (putText text buf).length = buf.length := by
  unfold putText
  rw [List.length_append, List.length_cons, List.length_drop]
  omega

theorem Terminated.putText {buf : List Char} (h : Terminated buf) (text : List Char) :
    Terminated (putText text buf) := by
  unfold Terminated Lib.putText at *
  rw [List.getLast?_append]
  cases hdrop : buf.drop (text.length + 1) with
  | nil => rfl
  | cons c rest =>
    have hlast : (buf.drop (text.length + 1)).getLast? = some nul := by
      have hlt : text.length + 1 < buf.length := by
        apply Nat.lt_of_not_le
        intro hle
        rw [List.drop_eq_nil_of_le hle] at hdrop
        cases hdrop
      rw [List.getLast?_drop, if_neg (by omega), h]
    rw [hdrop] at hlast
    rw [List.getLast?_cons_cons, hlast]
    rfl

/-- A byte written before the last keeps the terminator. -/
theorem Terminated.set {buf : List Char} (h : Terminated buf) {j : Nat} (hj : j + 1 < buf.length)
    (c : Char) : Terminated (buf.set j c) := by
  unfold Terminated at *
  rw [List.getLast?_eq_getElem?] at *
  rw [List.length_set, List.getElem?_set_ne (by omega), h]

theorem Terminated.set_nul {buf : List Char} (h : Terminated buf) (j : Nat) :
    Terminated (buf.set j nul) := by
  unfold Terminated at *
  rw [List.getLast?_eq_getElem?] at *
  rw [List.length_set]
  by_cases hj : j = buf.length - 1
  · have hlt : buf.length - 1 < buf.length := by
      exact (List.getElem?_eq_some_iff.mp h).1
    rw [hj, List.getElem?_set_self hlt]
  · rw [List.getElem?_set_ne hj, h]

/-! ## Numerals -/

/-- No numeral but that of 0 starts with a zero. -/
theorem head_toDigits {n : Nat} (hn : 0 < n) :
    ∃ d ds, Nat.toDigits 10 n = d :: ds ∧ d ≠ '0' := by
  induction n using Nat.strongRecOn with
  | ind n ih =>
    by_cases h : n < 10
    · have hdigit : ∀ m < 10, 0 < m → Nat.digitChar m ≠ '0' := by decide
      exact ⟨n.digitChar, [], Nat.toDigits_of_lt_base h, hdigit n h hn⟩
    · obtain ⟨d, ds, hd, hne⟩ := ih (n / 10) (by omega) (by omega)
      refine ⟨d, ds ++ [(n % 10).digitChar], ?_, hne⟩
      rw [Nat.toDigits_of_base_le (by decide) (by omega), hd]
      rfl

theorem isDigit_of_mem_numeral {n : Nat} {c : Char} (h : c ∈ Nat.toDigits 10 n) :
    c.isDigit = true := Nat.isDigit_of_mem_toDigits (by decide) (by decide) h

theorem nul_not_mem_numeral (n : Nat) : nul ∉ Nat.toDigits 10 n := by
  intro h
  have hdigit := isDigit_of_mem_numeral h
  exact absurd hdigit (by decide)

end SmartWarehouse.Lib
