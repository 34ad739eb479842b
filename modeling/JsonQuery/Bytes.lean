/-!
# Byte texts

Documents, paths and every piece cut from them are lists of bytes.  All lengths and offsets of the
library count bytes, so a piece of a document is found again by its offset and its length alone.

- `Bytes` is the type of texts, `Bytes.ofString` the bytes of a string, `Bytes.ofNat` a decimal.
- `Ascii` names the bytes that have a meaning in documents and paths.
-/

namespace JsonQuery

/-- A text as the list of its bytes. -/
abbrev Bytes := List UInt8

namespace Ascii

/-! ## Bytes with a meaning -/

abbrev backspace : UInt8 := 0x08
abbrev tab : UInt8 := 0x09
abbrev lineFeed : UInt8 := 0x0A
abbrev formFeed : UInt8 := 0x0C
abbrev carriageReturn : UInt8 := 0x0D
abbrev space : UInt8 := 0x20
abbrev bang : UInt8 := 0x21
abbrev quote : UInt8 := 0x22
abbrev hash : UInt8 := 0x23
abbrev percent : UInt8 := 0x25
abbrev openParen : UInt8 := 0x28
abbrev closeParen : UInt8 := 0x29
abbrev star : UInt8 := 0x2A
abbrev plus : UInt8 := 0x2B
abbrev comma : UInt8 := 0x2C
abbrev minus : UInt8 := 0x2D
abbrev dot : UInt8 := 0x2E
abbrev slash : UInt8 := 0x2F
abbrev zero : UInt8 := 0x30
abbrev nine : UInt8 := 0x39
abbrev colon : UInt8 := 0x3A
abbrev less : UInt8 := 0x3C
abbrev equal : UInt8 := 0x3D
abbrev greater : UInt8 := 0x3E
abbrev question : UInt8 := 0x3F
abbrev atSign : UInt8 := 0x40
abbrev openBracket : UInt8 := 0x5B
abbrev backslash : UInt8 := 0x5C
abbrev closeBracket : UInt8 := 0x5D
abbrev underscore : UInt8 := 0x5F
abbrev openBrace : UInt8 := 0x7B
abbrev bar : UInt8 := 0x7C
abbrev closeBrace : UInt8 := 0x7D
abbrev tilde : UInt8 := 0x7E
abbrev upperE : UInt8 := 0x45
abbrev upperI : UInt8 := 0x49
abbrev upperN : UInt8 := 0x4E
abbrev upperT : UInt8 := 0x54
abbrev upperZ : UInt8 := 0x5A
abbrev lowerB : UInt8 := 0x62
abbrev lowerE : UInt8 := 0x65
abbrev lowerF : UInt8 := 0x66
abbrev lowerI : UInt8 := 0x69
abbrev lowerN : UInt8 := 0x6E
abbrev lowerR : UInt8 := 0x72
abbrev lowerT : UInt8 := 0x74
abbrev lowerU : UInt8 := 0x75
abbrev lowerZ : UInt8 := 0x7A

/-! ## Classes of bytes -/

/-- One of the ten decimal digits. -/
def isDigit (c : UInt8) : Bool :=
  0x30 ≤ c && c ≤ 0x39

/-- A letter from `a` to `z`. -/
def isLower (c : UInt8) : Bool :=
  0x61 ≤ c && c ≤ 0x7A

/-- A letter from `A` to `Z`. -/
def isUpper (c : UInt8) : Bool :=
  0x41 ≤ c && c ≤ 0x5A

/-- A letter or a digit. -/
def isAlphanumeric (c : UInt8) : Bool :=
  isDigit c || isLower c || isUpper c

/-- The lower case of a letter; every other byte is kept. -/
def toLower (c : UInt8) : UInt8 :=
  if isUpper c then c + 0x20 else c

/-- The upper case of a letter; every other byte is kept. -/
def toUpper (c : UInt8) : UInt8 :=
  if isLower c then c - 0x20 else c

/-- The value of a decimal digit. -/
def digitValue (c : UInt8) : Nat :=
  c.toNat - 0x30

/-- The value of a hexadecimal digit of either case. -/
def hexValue? (c : UInt8) : Option Nat :=
  if isDigit c then some (c.toNat - 0x30)
  else if 0x61 ≤ c && c ≤ 0x66 then some (c.toNat - 0x57)
  else if 0x41 ≤ c && c ≤ 0x46 then some (c.toNat - 0x37)
  else none

/-- The lower-case hexadecimal digit of a value below sixteen. -/
def hexDigit (n : Nat) : UInt8 :=
  if n < 10 then UInt8.ofNat (0x30 + n) else UInt8.ofNat (0x57 + n)

/-- A bracket of any of the three kinds that opens. -/
def isOpener (c : UInt8) : Bool :=
  c == openBrace || c == openBracket || c == openParen

/-- A bracket of any of the three kinds that closes. -/
def isCloser (c : UInt8) : Bool :=
  c == closeBrace || c == closeBracket || c == closeParen

end Ascii

namespace Bytes

/-! ## Texts from strings and numbers -/

/-- The UTF-8 bytes of a string. -/
def ofString (s : String) : Bytes :=
  s.toUTF8.data.toList

/-- The plain decimal spelling of a number. -/
def ofNat (n : Nat) : Bytes :=
  (Nat.toDigits 10 n).map fun c => UInt8.ofNat c.toNat

/-- The number that a run of decimal digits spells. -/
def toNat (digits : Bytes) : Nat :=
  digits.foldl (fun n c => n * 10 + Ascii.digitValue c) 0

/-- Every letter in lower case. -/
def toLower (text : Bytes) : Bytes :=
  text.map Ascii.toLower

/-- A text in a pair of quotes, taken as it is. -/
def quoted (text : Bytes) : Bytes :=
  Ascii.quote :: text ++ [Ascii.quote]

/-- Joins texts with a separator between neighbours. -/
def join (separator : Bytes) (texts : List Bytes) : Bytes :=
  separator.intercalate texts

theorem join_nil (separator : Bytes) : join separator [] = [] :=
  rfl

theorem join_singleton (separator text : Bytes) : join separator [text] = text := by
  simp [join, List.intercalate]

theorem join_cons_cons (separator text next : Bytes) (texts : List Bytes) :
    join separator (text :: next :: texts) =
      text ++ (separator ++ join separator (next :: texts)) := by
  simp [join, List.intercalate]

/-- Joins texts with a comma between neighbours. -/
def commaJoin (texts : List Bytes) : Bytes :=
  join [Ascii.comma] texts

theorem commaJoin_nil : commaJoin [] = [] :=
  join_nil _

theorem commaJoin_singleton (text : Bytes) : commaJoin [text] = text :=
  join_singleton _ _

theorem commaJoin_cons_cons (text next : Bytes) (texts : List Bytes) :
    commaJoin (text :: next :: texts) = text ++ Ascii.comma :: commaJoin (next :: texts) :=
  join_cons_cons _ _ _ _

/-- The texts between the separators of a text: one more than there are separators. -/
def splitOn (separator : UInt8) (text : Bytes) : List Bytes :=
  List.splitOn separator text

/-- The parts of a list hold what the list holds, and no separator. -/
theorem mem_splitOn {α : Type} [BEq α] [LawfulBEq α] {separator c : α} {text part : List α}
    (hpart : part ∈ text.splitOn separator) (hc : c ∈ part) : c ∈ text ∧ c ≠ separator := by
  -- On the list: a separator starts a new part, anything else joins the first one
  induction text generalizing part with
  | nil =>
    have hnil : part = [] := by simpa using hpart
    simp [hnil] at hc
  | cons b text ih =>
    rw [List.splitOn_cons_eq_if_modifyHead] at hpart
    split at hpart
    · rcases List.mem_cons.1 hpart with rfl | hpart
      · cases hc
      · obtain ⟨hmem, hne⟩ := ih hpart hc
        exact ⟨List.mem_cons_of_mem _ hmem, hne⟩
    · rename_i hne
      cases hsplit : text.splitOn separator with
      | nil => exact absurd hsplit (List.splitOn_ne_nil _ _)
      | cons first parts =>
        rw [hsplit, List.modifyHead_cons, List.mem_cons] at hpart
        have hb : b ≠ separator := by simpa using hne
        rcases hpart with rfl | hpart
        · rcases List.mem_cons.1 hc with rfl | hc
          · exact ⟨List.mem_cons_self, hb⟩
          · obtain ⟨hmem, hne⟩ := ih (by rw [hsplit]; exact List.mem_cons_self) hc
            exact ⟨List.mem_cons_of_mem _ hmem, hne⟩
        · obtain ⟨hmem, hne⟩ := ih (by rw [hsplit]; exact List.mem_cons_of_mem _ hpart) hc
          exact ⟨List.mem_cons_of_mem _ hmem, hne⟩

end Bytes

end JsonQuery
