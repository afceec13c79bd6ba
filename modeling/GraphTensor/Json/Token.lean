import GraphTensor.Json.Basic
set_option autoImplicit false

/-! # The tokens of a JSON text

A text is cut into brackets, separators, words, strings and numbers (`JsonToken`); blanks between
them are dropped. Strings come as their characters (`JsonToken.stringBody?`,
`JsonToken.charsOfCodes?`), or as no text where half a surrogate pair stands alone, and numbers as
decimals (`JsonToken.number?`), not as doubles, since what a number is read as depends on who reads
it.

Each piece that is read leaves a shorter rest, which is why the cutting (`JsonToken.ofChars?`) comes
to an end; the lemmas on lengths are about that alone. -/

namespace GraphTensor

/-- A piece of a JSON text. -/
inductive JsonToken where
  /-- A bracket, a brace, a comma or a colon. -/
  | mark (c : Char)
  /-- The word null. -/
  | null
  /-- One of the words true and false. -/
  | bool (value : Bool)
  /-- A number, and whether it is written without point and exponent. -/
  | number (value : Decimal) (integral : Bool)
  /-- A string. -/
  | string (text : Option String)
deriving Repr

namespace JsonToken

/-! ## Strings -/

/-- The value of a hexadecimal digit. -/
def hexDigit? (c : Char) : Option Nat :=
  if '0' ≤ c ∧ c ≤ '9' then some (c.toNat - '0'.toNat)
  else if 'a' ≤ c ∧ c ≤ 'f' then some (c.toNat - 'a'.toNat + 10)
  else if 'A' ≤ c ∧ c ≤ 'F' then some (c.toNat - 'A'.toNat + 10)
  else none

/-- The number that four hexadecimal digits write. -/
def hexFour? (a b c d : Char) : Option Nat := do
  let a ← hexDigit? a
  let b ← hexDigit? b
  let c ← hexDigit? c
  let d ← hexDigit? d
  some (((a * 16 + b) * 16 + c) * 16 + d)

/-- The code that a character after a backslash stands for. -/
def escape? : Char → Option Nat
  | '"' => some 0x22
  | '\\' => some 0x5c
  | '/' => some 0x2f
  | 'b' => some 0x08
  | 'f' => some 0x0c
  | 'n' => some 0x0a
  | 'r' => some 0x0d
  | 't' => some 0x09
  | _ => none

/-- The codes of a string up to its closing quote, and the text after that. -/
def stringBody? : List Char → Option (List Nat × List Char)
  | [] => none
  | '"' :: rest => some ([], rest)
  | '\\' :: 'u' :: a :: b :: c :: d :: rest => do
    let code ← hexFour? a b c d
    let (codes, rest) ← stringBody? rest
    some (code :: codes, rest)
  | '\\' :: c :: rest => do
    let code ← escape? c
    let (codes, rest) ← stringBody? rest
    some (code :: codes, rest)
  | c :: rest =>
    if c.toNat < 0x20 || c = '\\' then none
    else do
      let (codes, rest) ← stringBody? rest
      some (c.toNat :: codes, rest)

/-- The characters of a list of codes: the two halves of a surrogate pair make one character, and a
    half without the other makes none. -/
def charsOfCodes? : List Nat → Option (List Char)
  | [] => some []
  | high :: rest =>
    if 0xd800 ≤ high ∧ high < 0xdc00 then
      match rest with
      | low :: rest =>
        if 0xdc00 ≤ low ∧ low < 0xe000 then do
          let chars ← charsOfCodes? rest
          some (Char.ofNat (0x10000 + (high - 0xd800) * 0x400 + (low - 0xdc00)) :: chars)
        else none
      | [] => none
    else if 0xdc00 ≤ high ∧ high < 0xe000 then none
    else do
      let chars ← charsOfCodes? rest
      some (Char.ofNat high :: chars)

/-! ## Numbers -/

/-- The number that a list of decimal digits writes. -/
def digitsValue (digits : List Char) : Nat :=
  digits.foldl (fun n d => 10 * n + (d.toNat - '0'.toNat)) 0

/-- Reads a point and the digits after it, if a point comes next; there has to be a digit. -/
def fraction? : List Char → Option (Option (List Char) × List Char)
  | '.' :: rest =>
    match rest.takeWhile Char.isDigit with
    | [] => none
    | digits => some (some digits, rest.dropWhile Char.isDigit)
  | rest => some (none, rest)

/-- Reads the digits of an exponent, after its sign. -/
def exponentDigits? (negative : Bool) (rest : List Char) : Option (Option Int × List Char) :=
  match rest.takeWhile Char.isDigit with
  | [] => none
  | digits =>
    let size : Int := digitsValue digits
    some (some (if negative then -size else size), rest.dropWhile Char.isDigit)

/-- Reads the exponent of a number, if one comes next. -/
def exponent? : List Char → Option (Option Int × List Char)
  | c :: rest =>
    if c = 'e' ∨ c = 'E' then
      match rest with
      | '+' :: rest => exponentDigits? false rest
      | '-' :: rest => exponentDigits? true rest
      | rest => exponentDigits? false rest
    else some (none, c :: rest)
  | [] => some (none, [])

/-- Reads a number without its minus sign. A leading zero stands alone. -/
def unsigned? (negative : Bool) (cs : List Char) : Option (JsonToken × List Char) :=
  let whole := cs.takeWhile Char.isDigit
  if whole.isEmpty || (whole.head? == some '0' && 1 < whole.length) then none
  else do
    let (fraction, rest) ← fraction? (cs.dropWhile Char.isDigit)
    let (exponent, rest) ← exponent? rest
    -- the point is taken out of the digits and counted into the exponent
    let places := fraction.getD []
    let value : Decimal :=
      ⟨negative, digitsValue (whole ++ places), exponent.getD 0 - places.length⟩
    some (.number value (fraction.isNone && exponent.isNone), rest)

/-- Reads a number. -/
def number? : List Char → Option (JsonToken × List Char)
  | '-' :: rest => unsigned? true rest
  | rest => unsigned? false rest

/-! ## Each piece leaves a shorter rest -/

theorem length_dropWhile_le (p : Char → Bool) (cs : List Char) :
    (cs.dropWhile p).length ≤ cs.length := by
  induction cs with
  | nil => simp
  | cons c rest ih =>
    rw [List.dropWhile_cons]
    split
    · simp only [List.length_cons]; omega
    · exact Nat.le_refl _

theorem length_of_stringBody? {cs : List Char} {codes : List Nat} {rest : List Char}
    (h : stringBody? cs = some (codes, rest)) : rest.length < cs.length := by
  fun_induction stringBody? cs generalizing codes rest with
  | case1 => simp at h
  | case2 => simp only [Option.some.injEq, Prod.mk.injEq] at h; simp [← h.2]
  | case3 a b c d tail ih =>
    simp only [Option.bind_eq_bind, Option.bind_eq_some_iff] at h
    obtain ⟨_, _, ⟨_, tail'⟩, hb, he⟩ := h
    have := ih hb
    simp only [Option.some.injEq, Prod.mk.injEq] at he
    simp only [← he.2, List.length_cons]
    omega
  | case4 c tail _ ih =>
    simp only [Option.bind_eq_bind, Option.bind_eq_some_iff] at h
    obtain ⟨_, _, ⟨_, tail'⟩, hb, he⟩ := h
    have := ih hb
    simp only [Option.some.injEq, Prod.mk.injEq] at he
    simp only [← he.2, List.length_cons]
    omega
  | case5 => simp at h
  | case6 c tail _ _ _ _ ih =>
    simp only [Option.bind_eq_bind, Option.bind_eq_some_iff] at h
    obtain ⟨⟨_, tail'⟩, hb, he⟩ := h
    have := ih hb
    simp only [Option.some.injEq, Prod.mk.injEq] at he
    simp only [← he.2, List.length_cons]
    omega

theorem length_of_fraction? {cs rest : List Char} {f : Option (List Char)}
    (h : fraction? cs = some (f, rest)) : rest.length ≤ cs.length := by
  unfold fraction? at h
  split at h
  · rename_i tail
    have := length_dropWhile_le Char.isDigit tail
    split at h
    · simp at h
    · simp only [Option.some.injEq, Prod.mk.injEq] at h
      rw [← h.2, List.length_cons]
      omega
  · simp only [Option.some.injEq, Prod.mk.injEq] at h
    simp [← h.2]

theorem length_of_exponentDigits? {negative : Bool} {cs rest : List Char} {e : Option Int}
    (h : exponentDigits? negative cs = some (e, rest)) : rest.length ≤ cs.length := by
  have := length_dropWhile_le Char.isDigit cs
  unfold exponentDigits? at h
  split at h
  · simp at h
  · simp only [Option.some.injEq, Prod.mk.injEq] at h
    rw [← h.2]
    exact this

theorem length_of_exponent? {cs rest : List Char} {e : Option Int}
    (h : exponent? cs = some (e, rest)) : rest.length ≤ cs.length := by
  unfold exponent? at h
  split at h
  · split at h
    · split at h <;> have := length_of_exponentDigits? h <;> simp only [List.length_cons] at * <;>
        omega
    · simp only [Option.some.injEq, Prod.mk.injEq] at h
      simp [← h.2]
  · simp only [Option.some.injEq, Prod.mk.injEq] at h
    simp [← h.2]

theorem length_of_unsigned? {negative : Bool} {cs rest : List Char} {t : JsonToken}
    (h : unsigned? negative cs = some (t, rest)) : rest.length < cs.length := by
  unfold unsigned? at h
  simp only at h
  split at h
  · simp at h
  · rename_i hw
    simp only [Option.bind_eq_bind, Option.bind_eq_some_iff, Prod.exists, Option.some.injEq,
      Prod.mk.injEq] at h
    obtain ⟨_, mid, hf, _, last, he, _, rfl⟩ := h
    have h1 := length_of_fraction? hf
    have h2 := length_of_exponent? he
    have h3 : (cs.dropWhile Char.isDigit).length < cs.length := by
      cases cs with
      | nil => simp at hw
      | cons c tail =>
        have := length_dropWhile_le Char.isDigit tail
        rw [List.dropWhile_cons]
        split
        · simp only [List.length_cons]; omega
        · rename_i hc; simp [hc] at hw
    omega

theorem length_of_number? {cs rest : List Char} {t : JsonToken}
    (h : number? cs = some (t, rest)) : rest.length < cs.length := by
  unfold number? at h
  split at h
  · have := length_of_unsigned? h
    simp only [List.length_cons]
    omega
  · exact length_of_unsigned? h

/-! ## Texts -/

/-- The characters that may stand between tokens. -/
def isBlank (c : Char) : Bool :=
  c = ' ' || c = '\t' || c = '\n' || c = '\r'

/-- The characters that are tokens by themselves. -/
def isMark (c : Char) : Bool :=
  c = '[' || c = ']' || c = '{' || c = '}' || c = ',' || c = ':'

/-- The tokens of a text, if it consists of tokens and blanks. -/
def ofChars? : List Char → Option (List JsonToken)
  | [] => some []
  | 'n' :: 'u' :: 'l' :: 'l' :: rest => do some (.null :: (← ofChars? rest))
  | 't' :: 'r' :: 'u' :: 'e' :: rest => do some (.bool true :: (← ofChars? rest))
  | 'f' :: 'a' :: 'l' :: 's' :: 'e' :: rest => do some (.bool false :: (← ofChars? rest))
  | c :: rest =>
    if isBlank c then ofChars? rest
    else if isMark c then do some (.mark c :: (← ofChars? rest))
    else if c = '"' then
      match _h : stringBody? rest with
      | none => none
      | some (codes, after) => do
        let text := (charsOfCodes? codes).map String.ofList
        some (.string text :: (← ofChars? after))
    else
      match _h : number? (c :: rest) with
      | none => none
      | some (token, after) => do some (token :: (← ofChars? after))
termination_by cs => cs.length
decreasing_by
  all_goals simp only [List.length_cons]
  · omega
  · omega
  · omega
  · omega
  · omega
  · have := length_of_stringBody? _h; omega
  · have := length_of_number? _h; simpa using this

end JsonToken

end GraphTensor
