/-
  The grammar of JSON texts.

  `IsJsonObject` holds of the texts of objects: members between braces, a member being a string,
  a colon and a value, with white space around each. Decimal numerals are numbers
  (`isJsonNumber_toDigits`), and members joined by commas make an object
  (`isJsonObject_of_members`).
-/
import SmartWarehouse.Lib.CString

namespace SmartWarehouse.Lib

/-! ## Grammar -/

def IsJsonSpace (cs : List Char) : Prop := ∀ c ∈ cs, c ∈ [' ', '\t', '\n', '\r']

def IsDigits (cs : List Char) : Prop := cs ≠ [] ∧ ∀ c ∈ cs, c.isDigit = true

/-- Digits without a leading zero, or a single zero. -/
def IsJsonInt (cs : List Char) : Prop := IsDigits cs ∧ (cs.head? = some '0' → cs = ['0'])

def IsJsonFraction (cs : List Char) : Prop := cs = [] ∨ ∃ ds, cs = '.' :: ds ∧ IsDigits ds

def IsJsonExponent (cs : List Char) : Prop :=
  cs = [] ∨ ∃ e sign ds, cs = e :: (sign ++ ds) ∧ e ∈ ['e', 'E'] ∧ sign ∈ [[], ['+'], ['-']] ∧
    IsDigits ds

def IsJsonNumber (cs : List Char) : Prop :=
  ∃ minus int fraction exponent, cs = minus ++ (int ++ (fraction ++ exponent)) ∧
    minus ∈ [[], ['-']] ∧ IsJsonInt int ∧ IsJsonFraction fraction ∧ IsJsonExponent exponent

def isHexDigit (c : Char) : Bool :=
  c.isDigit || ('a' ≤ c && c ≤ 'f') || ('A' ≤ c && c ≤ 'F')

/-- What stands between the quotes of a string. -/
inductive IsJsonChars : List Char → Prop where
  | nil : IsJsonChars []
  | char {c : Char} {cs : List Char} (hc : 32 ≤ c.toNat ∧ c ≠ '"' ∧ c ≠ '\\')
      (h : IsJsonChars cs) : IsJsonChars (c :: cs)
  | escape {c : Char} {cs : List Char} (hc : c ∈ ['"', '\\', '/', 'b', 'f', 'n', 'r', 't'])
      (h : IsJsonChars cs) : IsJsonChars ('\\' :: c :: cs)
  | unicode {hex cs : List Char} (hlength : hex.length = 4) (hhex : ∀ c ∈ hex, isHexDigit c = true)
      (h : IsJsonChars cs) : IsJsonChars ('\\' :: 'u' :: (hex ++ cs))

def IsJsonString (cs : List Char) : Prop := ∃ body, cs = '"' :: (body ++ ['"']) ∧ IsJsonChars body

mutual

inductive IsJsonValue : List Char → Prop where
  | literal {cs : List Char} (h : cs ∈ ["null".toList, "true".toList, "false".toList]) :
      IsJsonValue cs
  | number {cs : List Char} (h : IsJsonNumber cs) : IsJsonValue cs
  | string {cs : List Char} (h : IsJsonString cs) : IsJsonValue cs
  | emptyArray {cs : List Char} (h : IsJsonSpace cs) : IsJsonValue ('[' :: (cs ++ [']']))
  | array {cs : List Char} (h : IsJsonElements cs) : IsJsonValue ('[' :: (cs ++ [']']))
  | object {cs : List Char} (h : IsJsonObject cs) : IsJsonValue cs

/-- A value between white space. -/
inductive IsJsonElement : List Char → Prop where
  | mk {before cs after : List Char} (hbefore : IsJsonSpace before) (h : IsJsonValue cs)
      (hafter : IsJsonSpace after) : IsJsonElement (before ++ (cs ++ after))

inductive IsJsonElements : List Char → Prop where
  | one {cs : List Char} (h : IsJsonElement cs) : IsJsonElements cs
  | cons {cs rest : List Char} (h : IsJsonElement cs) (hrest : IsJsonElements rest) :
      IsJsonElements (cs ++ ',' :: rest)

inductive IsJsonMember : List Char → Prop where
  | mk {before key after value : List Char} (hbefore : IsJsonSpace before)
      (hkey : IsJsonString key) (hafter : IsJsonSpace after) (hvalue : IsJsonElement value) :
      IsJsonMember (before ++ (key ++ (after ++ ':' :: value)))

inductive IsJsonMembers : List Char → Prop where
  | one {cs : List Char} (h : IsJsonMember cs) : IsJsonMembers cs
  | cons {cs rest : List Char} (h : IsJsonMember cs) (hrest : IsJsonMembers rest) :
      IsJsonMembers (cs ++ ',' :: rest)

inductive IsJsonObject : List Char → Prop where
  | empty {cs : List Char} (h : IsJsonSpace cs) : IsJsonObject ('\x7b' :: (cs ++ ['\x7d']))
  | members {cs : List Char} (h : IsJsonMembers cs) : IsJsonObject ('\x7b' :: (cs ++ ['\x7d']))

end

/-! ## Numbers and objects -/

theorem isJsonInt_toDigits (n : Nat) : IsJsonInt (Nat.toDigits 10 n) := by
  refine ⟨⟨Nat.toDigits_ne_nil, fun c hc => isDigit_of_mem_numeral hc⟩, ?_⟩
  intro hhead
  by_cases hn : n = 0
  · rw [hn]
    rfl
  · obtain ⟨d, ds, hd, hne⟩ := head_toDigits (Nat.pos_of_ne_zero hn)
    rw [hd] at hhead
    exact absurd (Option.some.inj hhead) hne

theorem isJsonNumber_toDigits (n : Nat) : IsJsonNumber (Nat.toDigits 10 n) := by
  refine ⟨[], Nat.toDigits 10 n, [], [], ?_, ?_, isJsonInt_toDigits n, .inl rfl, .inl rfl⟩
  · rw [List.nil_append, List.append_nil, List.append_nil]
  · exact List.mem_cons_self

theorem isJsonSpace_nil : IsJsonSpace [] := by
  intro c hc
  cases hc

/-- A text that needs no escapes. -/
theorem isJsonChars_of_forall {cs : List Char}
    (h : ∀ c ∈ cs, 32 ≤ c.toNat ∧ c ≠ '"' ∧ c ≠ '\\') : IsJsonChars cs := by
  induction cs with
  | nil => exact .nil
  | cons c cs ih =>
    refine .char (h c List.mem_cons_self) (ih ?_)
    intro d hd
    exact h d (List.mem_cons_of_mem _ hd)

theorem plain_of_isDigit {c : Char} (h : c.isDigit = true) :
    32 ≤ c.toNat ∧ c ≠ '"' ∧ c ≠ '\\' := by
  have hc : 48 ≤ c.toNat ∧ c.toNat ≤ 57 := by
    simpa [Char.isDigit, UInt32.le_iff_toNat_le] using h
  refine ⟨by omega, ?_, ?_⟩
  · intro heq
    rw [heq] at hc
    exact absurd hc (by decide)
  · intro heq
    rw [heq] at hc
    exact absurd hc (by decide)

/-- Members joined by commas. -/
theorem isJsonMembers_intercalate {members : List (List Char)} (hne : members ≠ [])
    (h : ∀ cs ∈ members, IsJsonMember cs) : IsJsonMembers ([','].intercalate members) := by
  induction members with
  | nil => exact absurd rfl hne
  | cons cs rest ih =>
    cases rest with
    | nil =>
      rw [List.intercalate_singleton]
      exact .one (h cs List.mem_cons_self)
    | cons cs' rest =>
      have hrest : IsJsonMembers ([','].intercalate (cs' :: rest)) := by
        apply ih (List.cons_ne_nil _ _)
        intro x hx
        exact h x (List.mem_cons_of_mem _ hx)
      rw [List.intercalate_cons_cons, List.append_assoc]
      exact .cons (h cs List.mem_cons_self) hrest

theorem isJsonObject_of_members {members : List (List Char)} (hne : members ≠ [])
    (h : ∀ cs ∈ members, IsJsonMember cs) :
    IsJsonObject ('\x7b' :: ([','].intercalate members ++ ['\x7d'])) :=
  .members (isJsonMembers_intercalate hne h)

end SmartWarehouse.Lib
