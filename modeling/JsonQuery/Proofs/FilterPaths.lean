import JsonQuery.Path.Component
import JsonQuery.Proofs.Encoding

/-!
# Filters as they are read

A filter that compares a member is written with the escaped name of the member, an operator and an
operand, such as a text in quotes.  The reader takes such a filter apart into just these, whatever
bytes the name and the text hold: operators, brackets and quotes in the name stand behind
backslashes, and those in the text between its quotes.

## Layers

- **Operators**: the nine operators, what is written for each and what it says.
- **Scans**: the search for the operator and the closing bracket.
- **Parts**: trimming, the operator and the quotes around the operand.
- **Operands**: `Writes` is all that the reader asks of what is written for an operand.
- **Filters**: the component that is read.
- **Filters of any kind**: a hash sign behind the bracket changes nothing but what is collected.
-/

namespace JsonQuery.Filter

open Ascii Grammar

/-! ## Operators -/

/-- The operators that compare texts, as they are written. -/
inductive Operator where
  | equal
  | doubleEqual
  | notEqual
  | less
  | lessEqual
  | greater
  | greaterEqual
  | like
  | notLike
  deriving DecidableEq

namespace Operator

/-- What is written for an operator. -/
def text : Operator → Bytes
  | equal => [Ascii.equal]
  | doubleEqual => [Ascii.equal, Ascii.equal]
  | notEqual => [bang, Ascii.equal]
  | less => [Ascii.less]
  | lessEqual => [Ascii.less, Ascii.equal]
  | greater => [Ascii.greater]
  | greaterEqual => [Ascii.greater, Ascii.equal]
  | like => [percent]
  | notLike => [bang, percent]

/-- What an operator says of two texts, which are compared byte by byte. -/
def holds (actual expected : Bytes) : Operator → Bool
  | equal | doubleEqual => actual == expected
  | notEqual => actual != expected
  | less => decide (actual < expected)
  | lessEqual => decide (actual ≤ expected)
  | greater => decide (actual > expected)
  | greaterEqual => decide (actual ≥ expected)
  | like => Glob.isMatch actual expected
  | notLike => !Glob.isMatch actual expected

/-- The comparison that an operator is read as. -/
def comparison : Operator → Comparison
  | equal | doubleEqual => .equal
  | notEqual => .notEqual
  | less => .less
  | lessEqual => .lessEqual
  | greater => .greater
  | greaterEqual => .greaterEqual
  | like => .like
  | notLike => .notLike

theorem acceptsText_comparison (op : Operator) (actual expected : Bytes) :
    acceptsText op.comparison actual expected = op.holds actual expected := by
  cases op with
  | equal => rfl
  | doubleEqual => rfl
  | notEqual => rfl
  | less => rfl
  | lessEqual => exact (decide_not (p := expected < actual)).symm
  | greater => rfl
  | greaterEqual => exact (decide_not (p := actual < expected)).symm
  | like => rfl
  | notLike => rfl

theorem comparison_ne_present (op : Operator) : op.comparison ≠ .present := by
  cases op <;> exact nofun

/-- A string passes if it compares with the operand. -/
theorem acceptsValue_string (op : Operator) (raw expected : Bytes) :
    acceptsValue op.comparison expected (.string raw) =
      op.holds (Value.stringText raw) expected := by
  rw [acceptsValue, if_neg op.comparison_ne_present]
  exact op.acceptsText_comparison _ _

/-- Nothing compares with a text if it is missing. -/
theorem acceptsValue_missing (op : Operator) (expected : Bytes) :
    acceptsValue op.comparison expected .missing = false :=
  if_neg op.comparison_ne_present

end Operator

/-- Without a tilde in front of the operand the candidate itself is compared. -/
theorem accepts_of_head? {filter : Filter} (h : filter.operand.head? ≠ some tilde)
    (candidate : Result) :
    filter.accepts candidate =
      acceptsValue filter.comparison filter.operand candidate.value := by
  obtain ⟨path, comparison, operand, collects⟩ := filter
  cases operand with
  | nil => rfl
  | cons c operand => exact if_neg fun hc => h (congrArg some hc)

/-- The filter that collects the elements in which the member of a name compares with a text. -/
def comparing (name : Bytes) (op : Operator) (operand : Bytes) : Bytes :=
  hash :: openParen :: (Path.escape name ++ (op.text ++ (Quoted.encode operand ++
    [closeParen, hash])))

/-- The filter that collects the elements in which the member of a name compares with an operand,
however that is written. -/
def judging (name : Bytes) (op : Operator) (written : Bytes) : Bytes :=
  hash :: openParen :: (Path.escape name ++ (op.text ++ (written ++ [closeParen, hash])))

/-! ## Scans -/

section Scans

variable {inside : Inside}

/-- The inside with more bytes read. -/
def Inside.more (n : Nat) (inside : Inside) : Inside :=
  { inside with length := inside.length + n }

/-- A byte that neither escapes nor opens nor closes anything. -/
def isOrdinary (c : UInt8) : Bool :=
  c != backslash && c != openBracket && c != openParen && c != closeBracket && c != closeParen &&
    c != quote

/-- The search passes over an ordinary byte unless it is the first of the operator. -/
theorem insideFrom_ordinary {c : UInt8} (hc : isOrdinary c = true) {inside : Inside}
    (hop : startsOperator c = true → inside.operator?.isNone = false) (rest : Bytes) :
    insideFrom false 0 inside (c :: rest) = insideFrom false 0 (inside.more 1) rest := by
  simp only [isOrdinary, Bool.and_eq_true, bne_iff_ne] at hc
  obtain ⟨⟨⟨⟨⟨hslash, hsquare⟩, hround⟩, hsquare'⟩, hround'⟩, hquote⟩ := hc
  have hquote : (c == quote) = false := beq_eq_false_iff_ne.2 hquote
  have hnone : (inside.operator?.isNone && startsOperator c) = false := by
    cases h : startsOperator c with
    | false => exact Bool.and_false _
    | true => rw [hop h, Bool.false_and]
  rw [insideFrom.eq_def]
  simp [hnone, hslash, hsquare, hround, hsquare', hround', hquote, Inside.more]

theorem insideFrom_escaped (c : UInt8) (depth : Nat) (inside : Inside) (rest : Bytes) :
    insideFrom false depth inside (backslash :: c :: rest) =
      insideFrom false depth (inside.more 2) rest := by
  have hop : startsOperator backslash = false := rfl
  rw [insideFrom.eq_def]
  simp [hop, Inside.more]

/-- The bytes that the search does not just pass over. -/
def marks : Bytes :=
  [backslash, openBracket, openParen, closeBracket, closeParen, quote, bang, equal, less, greater,
    percent]

/-- The search passes over the bytes of a class that has none of those. -/
theorem ordinary_of_any_marks {p : UInt8 → Bool} (hmarks : marks.any p = false) {c : UInt8}
    (h : p c = true) : isOrdinary c = true ∧ startsOperator c = false := by
  have hne : ∀ b ∈ marks, c ≠ b := by
    rintro b hb rfl
    exact List.any_eq_false.1 hmarks c hb h
  simp only [marks, List.forall_mem_cons] at hne
  constructor
  · simp [isOrdinary, hne]
  · simp [startsOperator, hne]

theorem Inside.more_more (m n : Nat) (inside : Inside) :
    (inside.more m).more n = inside.more (m + n) := by
  simp [more, Nat.add_assoc]

/-- The search passes over the name of a member. -/
theorem insideFrom_escape (name : Bytes) (inside : Inside) (rest : Bytes) :
    insideFrom false 0 inside (Path.escape name ++ rest) =
      insideFrom false 0 (inside.more (Path.escape name).length) rest := by
  -- Byte by byte, of which only the ones that stand for themselves have no backslash
  induction name generalizing inside with
  | nil => rfl
  | cons c name ih =>
    rw [Path.escape_cons, List.append_assoc, List.length_append, ← Inside.more_more]
    split
    · rename_i hsafe
      obtain ⟨hordinary, hop⟩ := ordinary_of_any_marks (p := Path.isSafe) rfl hsafe
      rw [List.singleton_append, insideFrom_ordinary hordinary (by rw [hop]; exact nofun), ih]
      rfl
    · rw [List.cons_append, List.singleton_append, insideFrom_escaped, ih]
      rfl

/-- The search notes the first operator byte. -/
theorem insideFrom_first {c : UInt8} (hc : startsOperator c = true) {inside : Inside}
    (hnone : inside.operator? = none) (rest : Bytes) :
    insideFrom false 0 inside (c :: rest) =
      insideFrom false 0 { inside.more 1 with operator? := some inside.length } rest := by
  rw [insideFrom.eq_def]
  simp [hc, hnone, Inside.more]

theorem insideFrom_operator (op : Operator) {inside : Inside} (hnone : inside.operator? = none)
    (rest : Bytes) :
    insideFrom false 0 inside (op.text ++ rest) =
      insideFrom false 0 { inside.more op.text.length with operator? := some inside.length }
        rest := by
  -- A second byte follows the one that was noted
  have hsecond : ∀ c d : UInt8, startsOperator c = true → isOrdinary d = true →
      insideFrom false 0 inside (c :: d :: rest) =
        insideFrom false 0 { inside.more 2 with operator? := some inside.length } rest := by
    intro c d hc hd
    rw [insideFrom_first hc hnone, insideFrom_ordinary hd (fun _ => rfl)]
    rfl
  cases op with
  | equal => exact insideFrom_first rfl hnone rest
  | doubleEqual => exact hsecond _ _ rfl rfl
  | notEqual => exact hsecond _ _ rfl rfl
  | less => exact insideFrom_first rfl hnone rest
  | lessEqual => exact hsecond _ _ rfl rfl
  | greater => exact insideFrom_first rfl hnone rest
  | greaterEqual => exact hsecond _ _ rfl rfl
  | like => exact insideFrom_first rfl hnone rest
  | notLike => exact hsecond _ _ rfl rfl

/-- The inside with more bytes read, backslashes in strings included. -/
def Inside.moreQuoted (text : Bytes) (inside : Inside) : Inside :=
  { inside.more text.length with escaped := inside.escaped || text.contains backslash }

theorem insideFrom_plain {c : UInt8} (hquote : c ≠ quote) (hslash : c ≠ backslash) (depth : Nat)
    (inside : Inside) (rest : Bytes) :
    insideFrom true depth inside (c :: rest) =
      insideFrom true depth (inside.moreQuoted [c]) rest := by
  have hquote : (c != quote) = true := bne_iff_ne.2 hquote
  rw [insideFrom.eq_def]
  simp [hslash, hslash.symm, hquote, Inside.moreQuoted, Inside.more]

theorem insideFrom_slash (c : UInt8) (depth : Nat) (inside : Inside) (rest : Bytes) :
    insideFrom true depth inside (backslash :: c :: rest) =
      insideFrom true depth (inside.moreQuoted [backslash, c]) rest := by
  rw [insideFrom.eq_def]
  simp [Inside.moreQuoted, Inside.more]

theorem Inside.moreQuoted_append (a b : Bytes) (inside : Inside) :
    inside.moreQuoted (a ++ b) = (inside.moreQuoted a).moreQuoted b := by
  simp [moreQuoted, more, Nat.add_assoc, Bool.or_assoc]

/-- Inside of a string the search passes over whatever a scan over a container takes for a part of
the string. -/
theorem insideFrom_loose {text : Bytes} (h : IsLoose text) (depth : Nat) (inside : Inside)
    (rest : Bytes) :
    insideFrom true depth inside (text ++ rest) =
      insideFrom true depth (inside.moreQuoted text) rest := by
  induction h generalizing inside with
  | nil => simp [Inside.moreQuoted, Inside.more]
  | @plain c text hquote hslash _ ih =>
    rw [List.cons_append, insideFrom_plain hquote hslash, ih, ← Inside.moreQuoted_append]
    rfl
  | @pair c text _ ih =>
    rw [List.cons_append, List.cons_append, insideFrom_slash, ih, ← Inside.moreQuoted_append]
    rfl

theorem insideFrom_open (depth : Nat) (inside : Inside) (rest : Bytes) :
    insideFrom false depth inside (quote :: rest) =
      insideFrom true depth (inside.moreQuoted [quote]) rest := by
  have hop : startsOperator quote = false := rfl
  have hescaped : [quote].contains backslash = false := rfl
  rw [insideFrom.eq_def, Inside.moreQuoted, hescaped, Bool.or_false]
  simp only [hop, Bool.and_false, Bool.false_eq_true, if_false]
  rfl

theorem insideFrom_closeQuote (depth : Nat) (inside : Inside) (rest : Bytes) :
    insideFrom true depth inside (quote :: rest) =
      insideFrom false depth (inside.moreQuoted [quote]) rest := by
  have hescaped : [quote].contains backslash = false := rfl
  rw [insideFrom.eq_def, Inside.moreQuoted, hescaped, Bool.or_false]
  rfl

/-- The search passes over a text in quotes. -/
theorem insideFrom_encode (text : Bytes) (inside : Inside) (rest : Bytes) :
    insideFrom false 0 inside (Quoted.encode text ++ rest) =
      insideFrom false 0 (inside.moreQuoted (Quoted.encode text)) rest := by
  have htext : Quoted.encode text = [quote] ++ (text.flatMap Quoted.spell ++ [quote]) := rfl
  rw [htext, List.append_assoc, List.append_assoc, List.singleton_append, insideFrom_open,
    insideFrom_loose (Quoted.isBody_flatMap_spell text).isLoose, List.singleton_append,
    insideFrom_closeQuote, ← Inside.moreQuoted_append, ← Inside.moreQuoted_append]

/-- The search ends at a bracket. -/
theorem insideFrom_close (inside : Inside) (rest : Bytes) :
    insideFrom false 0 inside (closeParen :: rest) = some inside := by
  have hop : startsOperator closeParen = false := rfl
  rw [insideFrom.eq_def]
  simp only [hop, Bool.and_false, Bool.false_eq_true, if_false]
  rfl

end Scans

/-! ## Parts -/

section Parts

/-- Nothing is trimmed off a text that neither starts nor ends with space. -/
theorem trim_eq_self {text : Bytes} (hfirst : ∀ c ∈ text.head?, isSpace c = false)
    (hlast : ∀ c ∈ text.getLast?, isSpace c = false) : trim text = text := by
  have hdrop : ∀ text : Bytes, (∀ c ∈ text.head?, isSpace c = false) →
      text.dropWhile isSpace = text := by
    intro text h
    cases text with
    | nil => rfl
    | cons c text => rw [List.dropWhile_cons_of_neg (by simp [h c rfl])]
  rw [trim, hdrop text hfirst, hdrop text.reverse (by rwa [List.head?_reverse]),
    List.reverse_reverse]

theorem head?_escape {name : Bytes} (h : ∀ c ∈ name.head?, isSpace c = false) :
    ∀ c ∈ (Path.escape name).head?, isSpace c = false := by
  cases name with
  | nil => exact nofun
  | cons c name =>
    rw [Path.escape_cons]
    intro b hb
    split at hb
    · exact h b hb
    · obtain rfl := Option.some.inj hb
      rfl

theorem getLast?_escape (name : Bytes) : (Path.escape name).getLast? = name.getLast? := by
  rcases List.eq_nil_or_concat name with rfl | ⟨init, c, rfl⟩
  · rfl
  · rw [List.concat_eq_append, Path.escape, List.flatMap_append, List.getLast?_concat,
      List.flatMap_singleton]
    split
    · exact List.getLast?_concat
    · simp

/-- An operator ends where the operand behind it starts, unless that goes on with the operator. -/
theorem splitOperator_text (op : Operator) {written : Bytes}
    (hwritten : ∀ c ∈ written.head?, c ≠ Ascii.equal) :
    splitOperator (op.text ++ written) = (op.comparison, written) := by
  have hequal : written.head? ≠ some Ascii.equal := fun h => hwritten _ h rfl
  cases op with
  | equal | less | greater => exact if_neg hequal
  | doubleEqual | notEqual | lessEqual | greaterEqual | like | notLike => rfl

theorem head?_text (op : Operator) (behind : Bytes) :
    ∀ c ∈ (op.text ++ behind).head?, isSpace c = false := by
  cases op <;> exact fun c hc => Option.some.inj hc ▸ rfl

theorem getLast?_encode (text : Bytes) : (Quoted.encode text).getLast? = some quote := by
  rw [Quoted.encode, Bytes.quoted, List.getLast?_concat]

theorem unquote_encode {text : Bytes} (hvalid : Utf8.isValid text = true) :
    unquote ((Quoted.encode text).contains backslash) (Quoted.encode text) = text := by
  have hbody : ((Quoted.encode text).drop 1).dropLast = text.flatMap Quoted.spell :=
    List.dropLast_concat
  have hlength : 2 ≤ (Quoted.encode text).length := by
    simp [Quoted.encode, Bytes.quoted]
  have hquote : [quote].contains backslash = false := rfl
  have hcontains : (Quoted.encode text).contains backslash =
      (text.flatMap Quoted.spell).contains backslash := by
    have htext : Quoted.encode text = [quote] ++ (text.flatMap Quoted.spell ++ [quote]) := rfl
    rw [htext, List.contains_append, List.contains_append, hquote, Bool.or_false, Bool.false_or]
  rw [unquote, if_pos (by simp [hlength, getLast?_encode]; rfl), hbody, hcontains]
  split
  · exact Quoted.decode_flatMap_spell hvalid
  · rename_i h
    exact Quoted.flatMap_spell_of_backslash_notMem fun hmem => h (List.contains_iff_mem.2 hmem)

end Parts

/-! ## Operands -/

section Operands

/-- What is written for an operand: the search for the bracket passes over it, nothing is trimmed
off it, it does not go on with the operator, and without its quotes it is the operand. -/
structure Writes (written operand : Bytes) : Prop where
  passes : ∀ (inside : Inside) (rest : Bytes), insideFrom false 0 inside (written ++ rest) =
    insideFrom false 0 (inside.moreQuoted written) rest
  first : ∀ c ∈ written.head?, isSpace c = false ∧ c ≠ Ascii.equal
  last : ∃ c, written.getLast? = some c ∧ isSpace c = false
  unquoted : unquote (written.contains backslash) written = operand

/-- A text in quotes is an operand. -/
theorem writes_encode {text : Bytes} (hvalid : Utf8.isValid text = true) :
    Writes (Quoted.encode text) text where
  passes := insideFrom_encode text
  first := fun c hc => Option.some.inj hc ▸ ⟨rfl, by decide⟩
  last := ⟨quote, getLast?_encode text, rfl⟩
  unquoted := unquote_encode hvalid

variable {written operand : Bytes} (h : Writes written operand)

include h

theorem Writes.trim : trim written = written := by
  obtain ⟨b, hb, hspace⟩ := h.last
  exact trim_eq_self (fun c hc => (h.first c hc).1)
    fun c hc => Option.some.inj (hb.symm.trans hc) ▸ hspace

theorem Writes.trim_text (op : Operator) :
    Filter.trim (op.text ++ written) = op.text ++ written := by
  obtain ⟨b, hb, hspace⟩ := h.last
  refine trim_eq_self (head?_text op _) fun c hc => ?_
  rw [List.getLast?_append, hb] at hc
  exact Option.some.inj hc ▸ hspace

end Operands

/-! ## Filters -/

theorem text_judging (name : Bytes) (op : Operator) (written : Bytes) :
    judging name op written = hash :: openParen ::
      (Path.escape name ++ (op.text ++ written) ++ [closeParen, hash]) := by
  simp [judging]

/-- A comparison of a member with an operand is read as what it is written for. -/
theorem parse?_judging {name written operand : Bytes} (op : Operator)
    (hfirst : ∀ c ∈ name.head?, isSpace c = false)
    (hlast : ∀ c ∈ name.getLast?, isSpace c = false) (h : Writes written operand) :
    ∃ length, Filter.parse? (judging name op written) =
        some (⟨Path.escape name, op.comparison, operand, true⟩, length) ∧
      (judging name op written).drop length = [hash] := by
  have htext := text_judging name op written
  generalize hbody : Path.escape name ++ (op.text ++ written) = body at htext
  have hbehind : (body ++ [closeParen, hash]).drop (body.length + 1) = [hash] := by
    rw [← List.drop_drop, List.drop_left]
    rfl
  have hinside : inside? (body ++ [closeParen, hash]) =
      some ⟨body.length, some (Path.escape name).length, written.contains backslash⟩ := by
    rw [inside?, ← hbody, List.append_assoc, List.append_assoc, insideFrom_escape,
      insideFrom_operator op rfl, h.passes, insideFrom_close]
    simp [Inside.more, Inside.moreQuoted, Nat.add_assoc]
  have hleft : body.take (Path.escape name).length = Path.escape name := by
    rw [← hbody, List.take_left]
  have hright : body.drop (Path.escape name).length = op.text ++ written := by
    rw [← hbody, List.drop_left]
  have hname : trim (Path.escape name) = Path.escape name :=
    trim_eq_self (head?_escape hfirst) (by rwa [getLast?_escape])
  have hsplit : splitOperator (op.text ++ written) = (op.comparison, written) :=
    splitOperator_text op fun c hc => (h.first c hc).2
  have hstarts : Filter.starts (judging name op written) = true := rfl
  refine ⟨body.length + 3, ?_, by rw [htext]; exact hbehind⟩
  have hdrop : (judging name op written).drop 2 = body ++ [closeParen, hash] := by
    rw [htext]
    rfl
  rw [Filter.parse?, if_pos hstarts, hdrop]
  simp only [hinside, Option.map_some, ofInside, hbehind, List.take_left, hleft, hright, hname,
    h.trim_text, hsplit, h.trim, h.unquoted]
  rfl

/-- What stands behind a filter follows its component. -/
theorem elementComponent_of_parse? (dialect : Dialect) {path : Bytes} {filter : Filter}
    {length : Nat} (hparse : Filter.parse? path = some (filter, length)) :
    ElementComponent.parse? dialect path = some ⟨.filter filter,
      (ElementComponent.partFrom dialect [] true (path.drop length)).tail⟩ := by
  have hstarts : Filter.starts path = true := by
    unfold Filter.parse? at hparse
    split at hparse
    · assumption
    · cases hparse
  rw [ElementComponent.parse?, if_pos hstarts, hparse]
  rfl

/-- Such a filter ends its path. -/
theorem elementComponent_judging (dialect : Dialect) {name written operand : Bytes} (op : Operator)
    (hfirst : ∀ c ∈ name.head?, isSpace c = false)
    (hlast : ∀ c ∈ name.getLast?, isSpace c = false) (h : Writes written operand) :
    ElementComponent.parse? dialect (judging name op written) =
      some ⟨.filter ⟨Path.escape name, op.comparison, operand, true⟩, .done⟩ := by
  obtain ⟨length, hparse, hbehind⟩ := parse?_judging op hfirst hlast h
  rw [elementComponent_of_parse? dialect hparse, hbehind]
  rfl

theorem elementComponent_comparing (dialect : Dialect) {name operand : Bytes} (op : Operator)
    (hfirst : ∀ c ∈ name.head?, isSpace c = false)
    (hlast : ∀ c ∈ name.getLast?, isSpace c = false) (hvalid : Utf8.isValid operand = true) :
    ElementComponent.parse? dialect (comparing name op operand) =
      some ⟨.filter ⟨Path.escape name, op.comparison, operand, true⟩, .done⟩ :=
  elementComponent_judging dialect op hfirst hlast (writes_encode hvalid)

/-! ## Filters of any kind -/

/-- A filter for the first element that passes, as it is written. -/
def single (f : Bytes) : Bytes :=
  hash :: openParen :: (f ++ [closeParen])

/-- A filter for all elements that pass, as it is written. -/
def every (f : Bytes) : Bytes :=
  single f ++ [hash]

section Any

/-- The search for the closing bracket looks no further than the bracket. -/
theorem insideFrom_append {inString : Bool} {depth : Nat} {inside found : Inside} {text : Bytes}
    (h : insideFrom inString depth inside text = some found) (more : Bytes) :
    insideFrom inString depth inside (text ++ more) = some found := by
  -- By the cases of the search: each depends on a byte, or on a backslash and the byte behind it
  fun_induction insideFrom inString depth inside text with
  | case1 | case2 | case6 => cases h
  | _ =>
    rw [List.cons_append, insideFrom.eq_def]
    grind

theorem inside?_append {text : Bytes} {found : Inside} (h : inside? text = some found)
    (more : Bytes) : inside? (text ++ more) = some found :=
  insideFrom_append h more

theorem drop_every (f rest : Bytes) : (every f ++ rest).drop (f.length + 3) = hash :: rest := by
  rw [every, List.append_assoc]
  exact List.drop_left' (by simp [single])

variable {f : Bytes} {filter : Filter}
  (hparse : Filter.parse? (single f) = some (filter, f.length + 3))

include hparse

/-- The inside of a filter whose bracket closes at its end. -/
theorem exists_inside_of_parse? : ∃ inside : Inside, inside.length = f.length ∧
    inside? (f ++ [closeParen]) = some inside ∧ filter = ofInside inside (f ++ [closeParen]) := by
  have hstarts : Filter.starts (single f) = true := rfl
  rw [Filter.parse?, if_pos hstarts] at hparse
  obtain ⟨inside, hinside, hpair⟩ := Option.map_eq_some_iff.1 hparse
  obtain ⟨hfilter, hlength⟩ := Prod.mk.inj hpair
  exact ⟨inside, Nat.add_right_cancel hlength, hinside, hfilter.symm⟩

/-- A filter that ends with its bracket is one for the first element. -/
theorem collects_of_parse? : filter.collects = false := by
  obtain ⟨inside, hlength, -, rfl⟩ := exists_inside_of_parse? hparse
  have hcollects : (ofInside inside (f ++ [closeParen])).collects =
      decide (((f ++ [closeParen]).drop (inside.length + 1)).head? = some hash) := by
    unfold ofInside
    cases inside.operator? <;> rfl
  rw [hcollects, hlength, List.drop_eq_nil_of_le (by simp)]
  rfl

/-- A hash sign behind the bracket turns it into one for all elements, whatever follows. -/
theorem parse?_every (rest : Bytes) :
    Filter.parse? (every f ++ rest) = some ({ filter with collects := true }, f.length + 3) := by
  obtain ⟨inside, hlength, hinside, rfl⟩ := exists_inside_of_parse? hparse
  have htext : (every f ++ rest).drop 2 = f ++ [closeParen] ++ hash :: rest := by
    simp [every, single]
  have hstarts : Filter.starts (every f ++ rest) = true := rfl
  have hbehind : ((f ++ [closeParen] ++ hash :: rest).drop (inside.length + 1)).head? =
      some hash := by
    rw [hlength, List.drop_left' (by simp)]
    rfl
  have hbody : (f ++ [closeParen] ++ hash :: rest).take inside.length =
      (f ++ [closeParen]).take inside.length := by
    rw [hlength, List.take_append_of_le_length (by simp)]
  rw [Filter.parse?, if_pos hstarts, htext]
  dsimp only
  rw [inside?_append hinside, Option.map_some, hlength]
  refine congrArg (fun filter => some (filter, f.length + 3)) ?_
  unfold ofInside
  rw [hbehind, hbody]
  cases inside.operator? <;> simp

variable (dialect : Dialect)

theorem elementComponent_single :
    ElementComponent.parse? dialect (single f) = some ⟨.filter filter, .done⟩ := by
  have hbehind : (single f).drop (f.length + 3) = [] :=
    List.drop_eq_nil_of_le (by simp [single])
  rw [elementComponent_of_parse? dialect hparse, hbehind]
  rfl

theorem elementComponent_every :
    ElementComponent.parse? dialect (every f) =
      some ⟨.filter { filter with collects := true }, .done⟩ := by
  have hread := parse?_every hparse []
  have hbehind := drop_every f []
  rw [List.append_nil] at hread hbehind
  rw [elementComponent_of_parse? dialect hread, hbehind]
  rfl

/-- Behind a dot the path goes on inside of the elements that pass. -/
theorem elementComponent_every_deeper (path : Bytes) :
    ElementComponent.parse? dialect (every f ++ dot :: path) =
      some ⟨.filter { filter with collects := true }, .deeper path⟩ := by
  rw [elementComponent_of_parse? dialect (parse?_every hparse _), drop_every]
  rfl

end Any

end JsonQuery.Filter
