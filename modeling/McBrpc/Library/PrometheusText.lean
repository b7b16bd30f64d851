import Mathlib.Data.List.TakeWhile
import Mathlib.Data.List.Infix

/-!
# The Prometheus text format

A document is a sequence of lines: descriptions, types, samples, comments and blank lines.  A
backslash, a double quote and a line feed in a label value, and a backslash and a line feed in a
description, are written with a backslash.
-/

namespace PrometheusText

open List Bool Char

structure Sample where
  name : List Char
  labels : List (List Char × List Char)
  value : List Char
  timestamp : Option (List Char)
  deriving DecidableEq

inductive Entry where
  | help (name text : List Char)
  | type (name type : List Char)
  | sample (sample : Sample)
  deriving DecidableEq

def isBlank (c : Char) : Bool := c == ' ' || c == '\t'

def skipBlanks (text : List Char) : List Char := text.dropWhile isBlank

/-- The text up to the next blank, and the rest. -/
def token (text : List Char) : List Char × List Char := text.span (!isBlank ·)

def isLabelStart (c : Char) : Bool := c.isAlpha || c == '_'

def isLabelChar (c : Char) : Bool := c.isAlphanum || c == '_'

def isNameStart (c : Char) : Bool := isLabelStart c || c == ':'

def isNameChar (c : Char) : Bool := isLabelChar c || c == ':'

/-- A nonempty word with restricted first and later characters. -/
def isWord (start later : Char → Bool) : List Char → Bool
  | [] => false
  | c :: text => start c && text.all later

def isMetricName : List Char → Bool := isWord isNameStart isNameChar

def isLabelName : List Char → Bool := isWord isLabelStart isLabelChar

/-- The longest word at the start of the text, and the rest. -/
def readWord (start later : Char → Bool) : List Char → Option (List Char × List Char)
  | [] => none
  | c :: text =>
    if start c then some (c :: text.takeWhile later, text.dropWhile later) else none

/-- The text after a character that may follow blanks. -/
def expect (c : Char) (text : List Char) : Option (List Char) :=
  match skipBlanks text with
  | [] => none
  | first :: rest => if first = c then some rest else none

def dropSign : List Char → List Char
  | '+' :: text => text
  | '-' :: text => text
  | text => text

def isDigits (text : List Char) : Bool := text != [] && text.all isDigit

def isExponent : List Char → Bool
  | [] => true
  | c :: text => (c == 'e' || c == 'E') && isDigits (dropSign text)

/-- Digits with an optional fraction and an optional exponent. -/
def isDecimal (text : List Char) : Bool :=
  let whole := text.takeWhile isDigit
  match text.dropWhile isDigit with
  | '.' :: rest =>
    (whole != [] || rest.takeWhile isDigit != []) && isExponent (rest.dropWhile isDigit)
  | rest => whole != [] && isExponent rest

/-- A decimal number, an infinity or not a number. -/
def isFloat (text : List Char) : Bool :=
  isDecimal (dropSign text) ||
    [['i', 'n', 'f'], ['i', 'n', 'f', 'i', 'n', 'i', 't', 'y']].contains
      ((dropSign text).map toLower) ||
    text.map toLower == ['n', 'a', 'n']

def isTimestamp (text : List Char) : Bool := isDigits (dropSign text)

/-- The text of a description after its escapes are undone. -/
def readText : List Char → Option (List Char)
  | [] => some []
  | '\\' :: '\\' :: text => (readText text).map ('\\' :: ·)
  | '\\' :: 'n' :: text => (readText text).map ('\n' :: ·)
  | '\\' :: _ => none
  | c :: text => (readText text).map (c :: ·)

/-- A character that follows a backslash in a label value. -/
def unescape : Char → Option Char
  | '\\' => some '\\'
  | '"' => some '"'
  | 'n' => some '\n'
  | _ => none

/-- A label value up to its closing quote, and the rest. -/
def readValue : List Char → Option (List Char × List Char)
  | [] => none
  | '"' :: rest => some ([], rest)
  | ['\\'] => none
  | '\\' :: c :: text => do
    let first ← unescape c
    let (value, rest) ← readValue text
    some (first :: value, rest)
  | c :: text => do
    let (value, rest) ← readValue text
    some (c :: value, rest)

def readLabel (text : List Char) : Option ((List Char × List Char) × List Char) := do
  let (key, text) ← readWord isLabelStart isLabelChar text
  let text ← expect '=' text
  let text ← expect '"' text
  let (value, rest) ← readValue text
  some ((key, value), rest)

/-- The labels up to the closing brace, at most as many as the first argument says. -/
def readLabels : Nat → List Char → Option (List (List Char × List Char) × List Char)
  | 0, _ => none
  | fuel + 1, text =>
    match expect '}' text with
    | some rest => some ([], rest)
    | none => do
      let (label, text) ← readLabel (skipBlanks text)
      match expect ',' text with
      | some text => do
        let (labels, rest) ← readLabels fuel text
        some (label :: labels, rest)
      | none => do
        let rest ← expect '}' text
        some ([label], rest)

def readLabelSet (text : List Char) : Option (List (List Char × List Char) × List Char) :=
  match expect '{' text with
  | some text => readLabels (text.length + 1) text
  | none => some ([], text)

def readTimestamp (text : List Char) : Option (Option (List Char)) :=
  match skipBlanks text with
  | [] => some none
  | c :: text =>
    let (timestamp, rest) := token (c :: text)
    if isTimestamp timestamp && skipBlanks rest == [] then some (some timestamp) else none

def parseSample (line : List Char) : Option Sample := do
  let (name, text) ← readWord isNameStart isNameChar line
  let (labels, text) ← readLabelSet text
  let (value, text) := token (skipBlanks text)
  let timestamp ← readTimestamp text
  if isFloat value then some ⟨name, labels, value, timestamp⟩ else none

def types : List (List Char) :=
  ["counter".toList, "gauge".toList, "histogram".toList, "summary".toList, "untyped".toList]

def parseHelp (text : List Char) : Option Entry := do
  let (name, text) ← readWord isNameStart isNameChar text
  if text.head?.all isBlank then
    let text ← readText (skipBlanks text)
    some (.help name text)
  else none

def parseType (text : List Char) : Option Entry := do
  let (name, text) ← readWord isNameStart isNameChar text
  if text.head?.all isBlank then
    let (type, rest) := token (skipBlanks text)
    if types.contains type && skipBlanks rest == [] then some (.type name type) else none
  else none

/-- A comment, which is ignored unless it is a description or a type. -/
def parseComment (text : List Char) : Option (Option Entry) :=
  let (keyword, rest) := token (skipBlanks text)
  if keyword = "HELP".toList then (parseHelp (skipBlanks rest)).map some
  else if keyword = "TYPE".toList then (parseType (skipBlanks rest)).map some
  else some none

def parseLine (line : List Char) : Option (Option Entry) :=
  match skipBlanks line with
  | [] => some none
  | '#' :: text => parseComment text
  | text => (parseSample text).map fun sample => some (.sample sample)

/-- The lines of a text in which every line is ended. -/
def splitLines : List Char → Option (List (List Char))
  | [] => some []
  | c :: text =>
    if c = '\n' then (splitLines text).map ([] :: ·)
    else
      match splitLines text with
      | some (line :: lines) => some ((c :: line) :: lines)
      | _ => none

def parseLines : List (List Char) → Option (List Entry)
  | [] => some []
  | line :: lines => do
    let entry ← parseLine line
    let entries ← parseLines lines
    some (entry.toList ++ entries)

def parse (text : List Char) : Option (List Entry) := (splitLines text).bind parseLines

/-- The samples of a document, each with the last description before it. -/
def describedSamples (text : List Char) : List Entry → List (Sample × List Char)
  | [] => []
  | .help _ next :: entries => describedSamples next entries
  | .type _ _ :: entries => describedSamples text entries
  | .sample line :: entries => (line, text) :: describedSamples text entries

section TokenLemmas

variable {start later : Char → Bool} {word rest text tail : List Char} {c : Char}

theorem eq_append_of_readWord (read : readWord start later text = some (word, rest)) :
    text = word ++ rest ∧ isWord start later word := by
  cases text with
  | nil => cases read
  | cons c text =>
    rw [readWord] at read
    split at read
    · next starts =>
      obtain ⟨rfl, rfl⟩ := Prod.mk.inj (Option.some.inj read)
      refine ⟨by rw [cons_append, takeWhile_append_dropWhile], ?_⟩
      rw [isWord, starts, Bool.true_and]
      exact all_takeWhile
    · cases read

theorem readWord_append (isWord_word : isWord start later word)
    (stops : rest.head?.all (!later ·)) :
    readWord start later (word ++ rest) = some (word, rest) := by
  cases word with
  | nil => cases isWord_word
  | cons c word =>
    rw [isWord, and_eq_true] at isWord_word
    have stop : rest.takeWhile later = [] ∧ rest.dropWhile later = rest := by
      cases rest with
      | nil => exact ⟨rfl, rfl⟩
      | cons first rest =>
        have fails : ¬later first := by simpa using stops
        exact ⟨takeWhile_cons_of_neg fails, dropWhile_cons_of_neg fails⟩
    rw [cons_append, readWord, if_pos isWord_word.1,
      takeWhile_append_of_pos (all_eq_true.mp isWord_word.2),
      dropWhile_append_of_pos (all_eq_true.mp isWord_word.2), stop.1, stop.2,
      append_nil]

theorem isWord_append (isWord_word : isWord start later word) (all_tail : tail.all later) :
    isWord start later (word ++ tail) := by
  cases word with
  | nil => cases isWord_word
  | cons c word =>
    rw [isWord, and_eq_true] at isWord_word
    rw [cons_append, isWord, isWord_word.1, all_append, isWord_word.2, all_tail]
    rfl

theorem isNameChar_of_isNameStart (starts : isNameStart c) : isNameChar c := by
  simp only [isNameStart, isLabelStart, or_eq_true] at starts
  simp only [isNameChar, isLabelChar, isAlphanum, or_eq_true]
  tauto

theorem all_of_isMetricName {name : List Char} (isName : isMetricName name) :
    name.all isNameChar := by
  cases name with
  | nil => cases isName
  | cons c name =>
    rw [isMetricName, isWord, and_eq_true] at isName
    rw [all_cons, isNameChar_of_isNameStart isName.1, isName.2]
    rfl

theorem isMetricName_append {base left right : List Char} (isName : isMetricName (base ++ left))
    (isName_right : isMetricName right) : isMetricName (base ++ right) := by
  cases base with
  | nil => exact isName_right
  | cons c base =>
    rw [cons_append, isMetricName, isWord, and_eq_true, all_append, and_eq_true] at isName
    rw [cons_append, isMetricName, isWord, isName.1, all_append, isName.2.1,
      all_of_isMetricName isName_right]
    rfl

theorem skipBlanks_cons (solid : isBlank c = false) : skipBlanks (c :: text) = c :: text :=
  dropWhile_cons_of_neg (by simp [solid])

theorem expect_cons (solid : isBlank c = false) : expect c (c :: rest) = some rest := by
  rw [expect, skipBlanks_cons solid]
  exact if_pos rfl

theorem expect_cons_of_ne {first : Char} (solid : isBlank first = false) (ne : first ≠ c) :
    expect c (first :: rest) = none := by
  rw [expect, skipBlanks_cons solid]
  exact if_neg ne

theorem eq_cons_of_expect (solid : isBlank c = false) (expected : expect c text = some rest)
    (pre : text <+: c :: tail) : text = c :: rest := by
  cases text with
  | nil => cases expected
  | cons first text =>
    obtain ⟨rfl, -⟩ := cons_prefix_cons.mp pre
    rw [expect_cons solid] at expected
    rw [Option.some.inj expected]

theorem token_eq_self (solid : text.all (!isBlank ·)) : token text = (text, []) := by
  rw [token, span_eq_takeWhile_dropWhile, takeWhile_eq_self_iff.mpr, dropWhile_eq_nil_iff.mpr]
  · exact all_eq_true.mp solid
  · exact all_eq_true.mp solid

end TokenLemmas

section NumberLemmas

variable {text : List Char}

def isNumberChar (c : Char) : Bool := c.isAlphanum || c == '+' || c == '-' || c == '.'

theorem isNumberChar_of_isDigit {c : Char} (digit : c.isDigit) : isNumberChar c := by
  simp [isNumberChar, isAlphanum, digit]

theorem all_of_dropSign (all_rest : (dropSign text).all isNumberChar) : text.all isNumberChar := by
  rw [dropSign.eq_def] at all_rest
  split at all_rest
  · exact all_cons.trans (by rw [all_rest]; rfl)
  · exact all_cons.trans (by rw [all_rest]; rfl)
  · exact all_rest

theorem all_of_isDigits (digits : isDigits text) : text.all isNumberChar := by
  rw [isDigits, and_eq_true] at digits
  exact all_eq_true.mpr fun c c_mem =>
    isNumberChar_of_isDigit (all_eq_true.mp digits.2 c c_mem)

theorem all_of_isExponent (exponent : isExponent text) : text.all isNumberChar := by
  cases text with
  | nil => rfl
  | cons c text =>
    rw [isExponent, and_eq_true, or_eq_true, beq_iff_eq, beq_iff_eq] at exponent
    rw [all_cons, all_of_dropSign (all_of_isDigits exponent.2)]
    rcases exponent.1 with rfl | rfl
    · rfl
    · rfl

theorem all_of_dropWhile_isDigit (all_rest : (text.dropWhile isDigit).all isNumberChar) :
    text.all isNumberChar := by
  rw [← takeWhile_append_dropWhile (p := isDigit) (l := text), all_append, all_rest, Bool.and_true]
  exact all_eq_true.mpr fun c c_mem => isNumberChar_of_isDigit (mem_takeWhile_imp c_mem)

theorem all_of_isDecimal (decimal : isDecimal text) : text.all isNumberChar := by
  apply all_of_dropWhile_isDigit
  rw [isDecimal] at decimal
  split at decimal
  · next rest dropped =>
    rw [and_eq_true] at decimal
    rw [dropped, all_cons, all_of_dropWhile_isDigit (all_of_isExponent decimal.2)]
    rfl
  · rw [and_eq_true] at decimal
    exact all_of_isExponent decimal.2

theorem isNumberChar_of_toLower {c : Char} (lower : isNumberChar c.toLower) : isNumberChar c := by
  by_cases upper : c.isUpper
  · have alpha : c.isAlpha := or_eq_true_iff.mpr (.inl upper)
    simp [isNumberChar, isAlphanum, alpha]
  · have same : c.toLower = c := dif_neg fun range => upper (decide_eq_true range)
    rwa [same] at lower

theorem all_of_map_toLower (lower : (text.map toLower).all isNumberChar) :
    text.all isNumberChar := by
  rw [all_map] at lower
  exact all_eq_true.mpr fun c c_mem =>
    isNumberChar_of_toLower (all_eq_true.mp lower c c_mem)

theorem all_of_isFloat (float : isFloat text) : text.all isNumberChar := by
  rw [isFloat, or_eq_true, or_eq_true, beq_iff_eq] at float
  rcases float with (decimal | infinity) | nan
  · exact all_of_dropSign (all_of_isDecimal decimal)
  · apply all_of_dropSign
    apply all_of_map_toLower
    rcases mem_pair.mp (contains_iff_mem.mp infinity) with eq | eq
    · rw [eq]
      rfl
    · rw [eq]
      rfl
  · apply all_of_map_toLower
    rw [nan]
    rfl

end NumberLemmas

/-- An entry with names, a type and a value that the grammar admits. -/
def Entry.Valid : Entry → Prop
  | .help name _ => isMetricName name
  | .type name kind => isMetricName name ∧ kind ∈ types
  | .sample line =>
    isMetricName line.name ∧ (∀ label ∈ line.labels, isLabelName label.1) ∧ isFloat line.value

section Soundness

variable {text line rest : List Char}

theorem readLabel_eq_some {label : List Char × List Char}
    (read : readLabel text = some (label, rest)) :
    ∃ afterKey afterEq inner, readWord isLabelStart isLabelChar text = some (label.1, afterKey) ∧
      expect '=' afterKey = some afterEq ∧ expect '"' afterEq = some inner ∧
      readValue inner = some (label.2, rest) := by
  simp only [readLabel, Option.bind_eq_bind, Option.bind_eq_some_iff] at read
  obtain ⟨⟨key, afterKey⟩, readKey, afterEq, equals, inner, quote, ⟨value, rest'⟩, value_read,
    result⟩ := read
  obtain ⟨rfl, rfl⟩ := Prod.mk.inj (Option.some.inj result)
  exact ⟨afterKey, afterEq, inner, readKey, equals, quote, value_read⟩

theorem readLabels_eq_some {fuel : Nat} {labels : List (List Char × List Char)}
    (read : readLabels (fuel + 1) text = some (labels, rest)) :
    labels = [] ∨ ∃ label more after, labels = label :: more ∧
      readLabel (skipBlanks text) = some (label, after) ∧
      (more = [] ∨ ∃ next, expect ',' after = some next ∧
        readLabels fuel next = some (more, rest)) := by
  rw [readLabels] at read
  split at read
  · exact .inl (Prod.mk.inj (Option.some.inj read)).1.symm
  · simp only [Option.bind_eq_bind, Option.bind_eq_some_iff] at read
    obtain ⟨⟨label, after⟩, read_label, continued⟩ := read
    right
    split at continued
    · next next comma =>
      obtain ⟨⟨more, rest'⟩, read_more, result⟩ := Option.bind_eq_some_iff.mp continued
      obtain ⟨rfl, rfl⟩ := Prod.mk.inj (Option.some.inj result)
      exact ⟨label, more, after, rfl, read_label, .inr ⟨next, comma, read_more⟩⟩
    · obtain ⟨rest', -, result⟩ := Option.bind_eq_some_iff.mp continued
      obtain ⟨rfl, rfl⟩ := Prod.mk.inj (Option.some.inj result)
      exact ⟨label, [], after, rfl, read_label, .inl rfl⟩

theorem isLabelName_of_readLabels {fuel : Nat} {labels : List (List Char × List Char)}
    (read : readLabels fuel text = some (labels, rest)) :
    ∀ label ∈ labels, isLabelName label.1 := by
  induction fuel generalizing text labels rest with
  | zero => cases read
  | succ fuel ih =>
    rcases readLabels_eq_some read with rfl | ⟨label, more, after, rfl, read_label, read_more⟩
    · exact fun _ mem => nomatch mem
    · obtain ⟨_, _, _, key, _⟩ := readLabel_eq_some read_label
      refine forall_mem_cons.mpr ⟨(eq_append_of_readWord key).2, ?_⟩
      rcases read_more with rfl | ⟨next, -, read_more⟩
      · exact fun _ mem => nomatch mem
      · exact ih read_more

theorem parseSample_eq_some {sample : Sample} (parsed : parseSample line = some sample) :
    ∃ afterName afterLabels, readWord isNameStart isNameChar line = some (sample.name, afterName) ∧
      readLabelSet afterName = some (sample.labels, afterLabels) ∧ isFloat sample.value := by
  simp only [parseSample, Option.bind_eq_bind, Option.bind_eq_some_iff] at parsed
  obtain ⟨⟨name, afterName⟩, read_name, ⟨labels, afterLabels⟩, read_labels, timestamp, -,
    finished⟩ := parsed
  split at finished
  · next float =>
    obtain rfl := Option.some.inj finished
    exact ⟨afterName, afterLabels, read_name, read_labels, float⟩
  · cases finished

theorem valid_of_parseSample {sample : Sample} (parsed : parseSample line = some sample) :
    (Entry.sample sample).Valid := by
  obtain ⟨afterName, afterLabels, read_name, read_labels, float⟩ := parseSample_eq_some parsed
  refine ⟨(eq_append_of_readWord read_name).2, ?_, float⟩
  rw [readLabelSet] at read_labels
  split at read_labels
  · exact isLabelName_of_readLabels read_labels
  · obtain ⟨none_read, -⟩ := Prod.mk.inj (Option.some.inj read_labels)
    rw [← none_read]
    exact fun _ mem => nomatch mem

variable {entry : Entry}

theorem valid_of_parseHelp (parsed : parseHelp text = some entry) : entry.Valid := by
  simp only [parseHelp, Option.bind_eq_bind, Option.bind_eq_some_iff] at parsed
  obtain ⟨⟨name, afterName⟩, read_name, finished⟩ := parsed
  split at finished
  · obtain ⟨text, -, result⟩ := Option.bind_eq_some_iff.mp finished
    obtain rfl := Option.some.inj result
    exact (eq_append_of_readWord read_name).2
  · cases finished

theorem valid_of_parseType (parsed : parseType text = some entry) : entry.Valid := by
  simp only [parseType, Option.bind_eq_bind, Option.bind_eq_some_iff] at parsed
  obtain ⟨⟨name, afterName⟩, read_name, finished⟩ := parsed
  split at finished
  · split at finished
    · next known =>
      obtain rfl := Option.some.inj finished
      rw [and_eq_true, contains_iff_mem] at known
      exact ⟨(eq_append_of_readWord read_name).2, known.1⟩
    · cases finished
  · cases finished

theorem valid_of_parseLine (parsed : parseLine line = some (some entry)) : entry.Valid := by
  rw [parseLine] at parsed
  split at parsed
  · cases parsed
  · simp only [parseComment] at parsed
    split at parsed
    · obtain ⟨entry', help, result⟩ := Option.map_eq_some_iff.mp parsed
      obtain rfl := Option.some.inj result
      exact valid_of_parseHelp help
    · split at parsed
      · obtain ⟨entry', type, result⟩ := Option.map_eq_some_iff.mp parsed
        obtain rfl := Option.some.inj result
        exact valid_of_parseType type
      · cases parsed
  · obtain ⟨sample, parsed_sample, result⟩ := Option.map_eq_some_iff.mp parsed
    obtain rfl := Option.some.inj result
    exact valid_of_parseSample parsed_sample

theorem valid_of_parseLines {lines : List (List Char)} {entries : List Entry}
    (parsed : parseLines lines = some entries) : ∀ entry ∈ entries, entry.Valid := by
  induction lines generalizing entries with
  | nil =>
    obtain rfl := Option.some.inj parsed
    exact fun _ mem => nomatch mem
  | cons line lines ih =>
    simp only [parseLines, Option.bind_eq_bind, Option.bind_eq_some_iff] at parsed
    obtain ⟨first, parsed_line, others, parsed_lines, result⟩ := parsed
    obtain rfl := Option.some.inj result
    intro entry mem
    rcases mem_append.mp mem with here | later
    · rw [Option.mem_toList.mp here] at parsed_line
      exact valid_of_parseLine parsed_line
    · exact ih parsed_lines entry later

theorem valid_of_parse {entries : List Entry} (parsed : parse text = some entries) :
    ∀ entry ∈ entries, entry.Valid := by
  obtain ⟨lines, -, parsed_lines⟩ := Option.bind_eq_some_iff.mp parsed
  exact valid_of_parseLines parsed_lines

end Soundness

theorem splitLines_append {line : List Char} (one : '\n' ∉ line) (rest : List Char) :
    splitLines (line ++ '\n' :: rest) = (splitLines rest).map (line :: ·) := by
  induction line with
  | nil => rfl
  | cons c line ih =>
    obtain ⟨c_ne, one⟩ := not_or.mp (mt mem_cons.mpr one)
    rw [cons_append, splitLines, if_neg (Ne.symm c_ne), ih one]
    cases splitLines rest with
    | none => rfl
    | some lines => rfl

theorem parse_append {line : List Char} (one : '\n' ∉ line) (rest : List Char) :
    parse (line ++ '\n' :: rest) =
      (parseLine line).bind fun entry => (parse rest).map (entry.toList ++ ·) := by
  rw [parse, parse, splitLines_append one]
  cases splitLines rest with
  | none => cases parseLine line <;> rfl
  | some lines =>
    rw [Option.map_some, Option.bind_some, Option.bind_some, parseLines]
    cases parseLine line with
    | none => rfl
    | some entry => cases parseLines lines <;> rfl

def firstLine (text : List Char) : List Char := text.takeWhile (· ≠ '\n')

theorem exists_firstLine (text rest : List Char) :
    ∃ left, text ++ '\n' :: rest = firstLine text ++ '\n' :: left ∧
      ('\n' ∉ text → left = rest) := by
  induction text with
  | nil => exact ⟨rest, rfl, fun _ => rfl⟩
  | cons c text ih =>
    by_cases feed : c = '\n'
    · subst feed
      exact ⟨text ++ '\n' :: rest, rfl, fun one => absurd mem_cons_self one⟩
    · obtain ⟨left, split_eq, one_line⟩ := ih
      refine ⟨left, ?_, fun one => one_line (mt (mem_cons_of_mem c) one)⟩
      rw [cons_append, split_eq, firstLine, firstLine,
        takeWhile_cons_of_pos (by simpa using feed), cons_append]

theorem describedSamples_append (text : List Char) (lines : List Sample) (entries : List Entry) :
    describedSamples text (lines.map .sample ++ entries) =
      (lines.map fun line => (line, text)) ++ describedSamples text entries := by
  induction lines with
  | nil => rfl
  | cons line lines ih =>
    rw [map_cons, cons_append, describedSamples, ih]
    rfl

end PrometheusText
