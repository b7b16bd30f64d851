import McBrpc.Library.PrometheusText

/-!
# Documents of the Prometheus text format written without escapes

A writer that copies label values and descriptions as they are is understood exactly when they
need no escape: the reader removes a backslash at every escape, so it never reads the copied value
when there is one.
-/

namespace PrometheusText

open List Entry Nat

/-- A label value that is written as it is. -/
def isPlainValue (value : List Char) : Bool := value.all fun c => c != '\\' && c != '"' && c != '\n'

/-- A description that is written as it is; blanks before a description are skipped. -/
def isPlainText (text : List Char) : Bool :=
  text.head?.all (!isBlank ·) && text.all fun c => c != '\\' && c != '\n'

def rawLabel (label : List Char × List Char) : List Char :=
  label.1 ++ '=' :: '"' :: (label.2 ++ ['"'])

def rawLabels : List (List Char × List Char) → List Char
  | [] => []
  | [label] => rawLabel label ++ ['}']
  | label :: labels => rawLabel label ++ ',' :: rawLabels labels

def rawLabelSet (labels : List (List Char × List Char)) : List Char :=
  if labels = [] then [] else '{' :: rawLabels labels

namespace Entry

def raw : Entry → List Char
  | .help name text => "# HELP ".toList ++ (name ++ ' ' :: text)
  | .type name kind => "# TYPE ".toList ++ (name ++ ' ' :: kind)
  | .sample line => line.name ++ (rawLabelSet line.labels ++ ' ' :: line.value)

theorem raw_help (name text : List Char) :
    (help name text).raw = "# HELP ".toList ++ (name ++ ' ' :: text) := rfl

theorem raw_type (name kind : List Char) :
    (type name kind).raw = "# TYPE ".toList ++ (name ++ ' ' :: kind) := rfl

theorem raw_sample (line : Sample) :
    (sample line).raw = line.name ++ (rawLabelSet line.labels ++ ' ' :: line.value) := rfl

/-- An entry that needs no escapes and has no timestamp. -/
def Plain : Entry → Prop
  | .help _ text => isPlainText text
  | .type _ _ => True
  | .sample line => (∀ label ∈ line.labels, isPlainValue label.2) ∧ line.timestamp = none

end Entry

def rawDocument (entries : List Entry) : List Char :=
  entries.flatMap fun entry => entry.raw ++ ['\n']

theorem rawDocument_cons (entry : Entry) (entries : List Entry) :
    rawDocument (entry :: entries) = entry.raw ++ '\n' :: rawDocument entries := by
  simp [rawDocument]

section Values

variable {text value rest tail : List Char}

inductive Reads (rest : List Char) : List Char → List Char → Prop where
  | quote : Reads rest ('"' :: rest) []
  | escape {c first text value} (unescapes : unescape c = some first)
      (reads : Reads rest text value) : Reads rest ('\\' :: c :: text) (first :: value)
  | char {c text value} (quote : c ≠ '"') (slash : c ≠ '\\') (reads : Reads rest text value) :
      Reads rest (c :: text) (c :: value)

theorem reads_of_readValue (read : readValue text = some (value, rest)) :
    Reads rest text value := by
  fun_induction readValue text generalizing value with
  | case1 => cases read
  | case2 after =>
    obtain ⟨rfl, rfl⟩ := Prod.mk.inj (Option.some.inj read)
    exact .quote
  | case3 => cases read
  | case4 c text ih =>
    simp only [Option.bind_eq_bind, Option.bind_eq_some_iff] at read
    obtain ⟨first, unescapes, ⟨value, rest⟩, read, result⟩ := read
    obtain ⟨rfl, rfl⟩ := Prod.mk.inj (Option.some.inj result)
    exact .escape unescapes (ih read)
  | case5 c text quote last slash ih =>
    obtain ⟨⟨value, rest⟩, read, result⟩ := Option.bind_eq_some_iff.mp read
    obtain ⟨rfl, rfl⟩ := Prod.mk.inj (Option.some.inj result)
    refine .char quote (fun backslash => ?_) (ih ‹_›)
    cases text with
    | nil => exact last backslash rfl
    | cons first text => exact slash first text backslash rfl

theorem unescape_eq_slash {c : Char} (unescapes : unescape c = some '\\') : c = '\\' := by
  rw [unescape.eq_def] at unescapes
  split at unescapes
  · rfl
  · cases unescapes
  · cases unescapes
  · cases unescapes

section

variable (reads : Reads rest text value)
include reads

theorem Reads.length_lt : value.length < text.length := by
  induction reads with
  | quote => exact Nat.succ_pos _
  | escape unescapes reads ih => exact lt_succ_of_lt (succ_lt_succ ih)
  | char quote slash reads ih => exact succ_lt_succ ih

theorem Reads.not_prefix (count : Nat) :
    ¬value ++ ['"'] <+: '\\' :: (replicate count '\\' ++ text) := by
  induction reads generalizing count with
  | quote =>
    intro pre
    exact absurd (cons_prefix_cons.mp pre).1 (by decide)
  | @escape c first text value unescapes reads ih =>
    intro pre
    obtain ⟨rfl, later⟩ := cons_prefix_cons.mp pre
    obtain rfl := unescape_eq_slash unescapes
    have shifted : replicate count '\\' ++ '\\' :: '\\' :: text =
        '\\' :: (replicate (count + 1) '\\' ++ text) := by
      rw [replicate_succ', append_assoc, ← cons_append, ← replicate_succ,
        replicate_succ', append_assoc]
      rfl
    rw [shifted] at later
    exact ih (count + 1) later
  | char quote slash reads ih =>
    intro pre
    exact slash (cons_prefix_cons.mp pre).1

theorem Reads.eq_append (pre : text <+: value ++ '"' :: tail) :
    text = value ++ '"' :: rest ∧ ∀ c ∈ value, c ≠ '"' ∧ c ≠ '\\' := by
  induction reads with
  | quote => exact ⟨rfl, fun _ c_mem => nomatch c_mem⟩
  | @escape c first text value unescapes reads ih =>
    obtain ⟨rfl, later⟩ := cons_prefix_cons.mp pre
    obtain rfl := unescape_eq_slash unescapes
    have copied : value ++ ['"'] <+: value ++ '"' :: tail := ⟨tail, by simp⟩
    refine absurd (prefix_of_prefix_length_le copied later ?_) (reads.not_prefix 0)
    rw [length_append, length_cons]
    exact succ_le_succ (le_of_lt reads.length_lt)
  | char quote slash reads ih =>
    obtain ⟨text_eq, clean⟩ := ih (cons_prefix_cons.mp pre).2
    exact ⟨congrArg _ text_eq, forall_mem_cons.mpr ⟨⟨quote, slash⟩, clean⟩⟩

end

theorem readValue_cons {c : Char} (quote : c ≠ '"') (slash : c ≠ '\\') :
    readValue (c :: text) = (readValue text).map fun read => (c :: read.1, read.2) := by
  rw [readValue.eq_def]
  split
  · next is_nil => cases is_nil
  · next is_quote => exact absurd (cons.inj is_quote).1 quote
  · next is_slash => exact absurd (cons.inj is_slash).1 slash
  · next is_slash => exact absurd (cons.inj is_slash).1 slash
  · next is_cons =>
    obtain ⟨rfl, rfl⟩ := cons.inj is_cons
    cases readValue text <;> rfl

theorem readValue_append (plain : isPlainValue value) (rest : List Char) :
    readValue (value ++ '"' :: rest) = some (value, rest) := by
  induction value with
  | nil => rfl
  | cons c value ih =>
    simp only [isPlainValue, all_cons, Bool.and_eq_true, bne_iff_ne] at plain
    rw [cons_append, readValue_cons plain.1.1.2 plain.1.1.1, ih plain.2]
    rfl


end Values

section Labels

variable {text rest tail : List Char} {label : List Char × List Char}
  {labels more : List (List Char × List Char)} {fuel : Nat}

theorem isBlank_eq_false {accepts : Char → Bool} {c : Char} (taken : accepts c)
    (not_blank : accepts ' ' = false) (not_tab : accepts '\t' = false) : isBlank c = false := by
  apply eq_false_of_ne_true
  intro blank
  rw [isBlank, Bool.or_eq_true, beq_iff_eq, beq_iff_eq] at blank
  rcases blank with rfl | rfl
  · exact absurd taken (by simp [not_blank])
  · exact absurd taken (by simp [not_tab])

theorem solid_of_isNameStart {c : Char} (starts : isNameStart c) : isBlank c = false :=
  isBlank_eq_false starts rfl rfl

theorem exists_cons_of_isLabelName {key : List Char} (name : isLabelName key) :
    ∃ c word, key = c :: word ∧ isNameStart c ∧ isLabelStart c := by
  cases key with
  | nil => cases name
  | cons c word =>
    have starts := (Bool.and_eq_true _ _ ▸ name : isLabelStart c ∧ word.all isLabelChar).1
    exact ⟨c, word, rfl, by rw [isNameStart, starts, Bool.true_or], starts⟩

theorem rawLabels_cons (label : List Char × List Char) (more : List (List Char × List Char))
    (tail : List Char) :
    ∃ after, rawLabels (label :: more) ++ tail =
        label.1 ++ '=' :: '"' :: (label.2 ++ '"' :: after) ∧
      (more = [] → after = '}' :: tail) ∧
      (more ≠ [] → after = ',' :: (rawLabels more ++ tail)) := by
  cases more with
  | nil => exact ⟨'}' :: tail, by simp [rawLabels, rawLabel], fun _ => rfl, fun ne => absurd rfl ne⟩
  | cons next more =>
    exact ⟨',' :: (rawLabels (next :: more) ++ tail), by simp [rawLabels, rawLabel],
      fun none_left => (nomatch none_left), fun _ => rfl⟩

theorem readLabel_append (name : isLabelName label.1) (plain : isPlainValue label.2)
    (rest : List Char) :
    readLabel (label.1 ++ '=' :: '"' :: (label.2 ++ '"' :: rest)) = some (label, rest) := by
  rw [readLabel, readWord_append name rfl]
  simp only [Option.bind_eq_bind, Option.bind_some]
  rw [expect_cons rfl, Option.bind_some, expect_cons rfl, Option.bind_some,
    readValue_append plain rest]
  rfl

theorem readLabels_append (ne : labels ≠ []) (names : ∀ label ∈ labels, isLabelName label.1)
    (plain : ∀ label ∈ labels, isPlainValue label.2) (enough : labels.length ≤ fuel)
    (rest : List Char) : readLabels fuel (rawLabels labels ++ rest) = some (labels, rest) := by
  induction labels generalizing fuel with
  | nil => exact absurd rfl ne
  | cons label more ih =>
    obtain ⟨fuel, rfl⟩ := Nat.exists_eq_add_of_le' (Nat.le_trans (Nat.succ_pos _) enough)
    obtain ⟨after, raw_eq, last, inner⟩ := rawLabels_cons label more rest
    have name := names label mem_cons_self
    obtain ⟨c, word, key_eq, starts, _⟩ := exists_cons_of_isLabelName name
    have solid := solid_of_isNameStart starts
    have no_brace : c ≠ '}' := by
      rintro rfl
      exact absurd starts (by decide)
    have read_label := readLabel_append name (plain label mem_cons_self) after
    rw [raw_eq, readLabels, key_eq, cons_append, expect_cons_of_ne solid no_brace,
      skipBlanks_cons solid, ← cons_append, ← key_eq, read_label]
    simp only [Option.bind_eq_bind, Option.bind_some]
    cases more with
    | nil =>
      rw [last rfl, expect_cons_of_ne rfl (by decide), expect_cons rfl]
      rfl
    | cons next more =>
      rw [inner (cons_ne_nil _ _), expect_cons rfl]
      simp only
      rw [ih (cons_ne_nil _ _) (forall_mem_cons.mp names).2
        (forall_mem_cons.mp plain).2 (le_of_succ_le_succ enough)]
      rfl

theorem skipBlanks_eq_self {c : Char} (solid : isBlank c = false) (pre : text <+: c :: tail) :
    skipBlanks text = text := by
  cases text with
  | nil => rfl
  | cons first text =>
    obtain ⟨rfl, -⟩ := cons_prefix_cons.mp pre
    exact skipBlanks_cons solid

theorem isPlainValue_of_subset {value : List Char} (clean : ∀ c ∈ value, c ≠ '"' ∧ c ≠ '\\')
    (one : '\n' ∉ value) : isPlainValue value := by
  refine all_eq_true.mpr fun c c_mem => ?_
  have c_ne : c ≠ '\n' := fun feed => one (feed ▸ c_mem)
  simp [clean c c_mem, c_ne]

theorem plain_of_readLabel {next after : List Char} (read : readLabel text = some (label, next))
    (pre : text <+: label.1 ++ '=' :: '"' :: (label.2 ++ '"' :: after)) (one : '\n' ∉ text) :
    isPlainValue label.2 ∧ next <+: after ∧ '\n' ∉ next := by
  obtain ⟨afterKey, afterEq, inner, read_key, equals, quote, read_value⟩ := readLabel_eq_some read
  obtain ⟨rfl, -⟩ := eq_append_of_readWord read_key
  have key_prefix := (prefix_append_right_inj _).mp pre
  obtain rfl := eq_cons_of_expect rfl equals key_prefix
  have equals_prefix := (cons_prefix_cons.mp key_prefix).2
  obtain rfl := eq_cons_of_expect rfl quote equals_prefix
  have value_prefix := (cons_prefix_cons.mp equals_prefix).2
  obtain ⟨rfl, clean⟩ := (reads_of_readValue read_value).eq_append value_prefix
  have one_line : '\n' ∉ label.1 ∧ '\n' ∉ label.2 ∧ '\n' ∉ next := by
    simpa [not_or] using one
  have next_prefix := (prefix_append_right_inj _).mp value_prefix
  exact ⟨isPlainValue_of_subset clean one_line.2.1, (cons_prefix_cons.mp next_prefix).2,
    one_line.2.2⟩

/-- Labels that are read from a copy of themselves on one line need no escapes. -/
theorem plain_of_readLabels (names : ∀ label ∈ labels, isLabelName label.1)
    (read : readLabels fuel text = some (labels, rest))
    (pre : text <+: rawLabels labels ++ tail) (one : '\n' ∉ text) :
    ∀ label ∈ labels, isPlainValue label.2 := by
  induction labels generalizing fuel text with
  | nil => exact fun _ mem => nomatch mem
  | cons label more ih =>
    obtain ⟨name, names⟩ := forall_mem_cons.mp names
    obtain ⟨after, raw_eq, -, inner⟩ := rawLabels_cons label more tail
    obtain ⟨c, word, key_eq, starts, -⟩ := exists_cons_of_isLabelName name
    cases fuel with
    | zero => cases read
    | succ fuel =>
      obtain none_read | ⟨label', more', next, labels_eq, read_label, read_more⟩ :=
        readLabels_eq_some read
      · cases none_read
      · obtain ⟨rfl, rfl⟩ := cons.inj labels_eq
        rw [raw_eq] at pre
        rw [skipBlanks_eq_self (solid_of_isNameStart starts)
          (by rw [key_eq] at pre; exact pre)] at read_label
        obtain ⟨plain, next_prefix, one_next⟩ := plain_of_readLabel read_label pre one
        refine forall_mem_cons.mpr ⟨plain, ?_⟩
        rcases read_more with rfl | ⟨text', comma, read_more⟩
        · exact fun _ mem => nomatch mem
        · by_cases ne : more = []
          · rw [ne]
            exact fun _ mem => nomatch mem
          · rw [inner ne] at next_prefix
            obtain rfl := eq_cons_of_expect rfl comma next_prefix
            exact ih names read_more (cons_prefix_cons.mp next_prefix).2
              (mt (mem_cons_of_mem _) one_next)

theorem length_le_rawLabels (labels : List (List Char × List Char)) :
    labels.length ≤ (rawLabels labels).length := by
  induction labels with
  | nil => exact le_refl _
  | cons label more ih =>
    obtain ⟨after, raw_eq, -, inner⟩ := rawLabels_cons label more []
    have after_long : more.length ≤ after.length := by
      by_cases ne : more = []
      · simp [ne]
      · rw [inner ne]
        simpa using le_succ_of_le ih
    rw [append_nil] at raw_eq
    rw [raw_eq]
    simp only [length_append, length_cons]
    omega

end Labels

theorem not_mem_of_isWord {start later : Char → Bool} {word : List Char} {c : Char}
    (isWord_word : isWord start later word) (not_start : start c = false)
    (not_later : later c = false) : c ∉ word := by
  cases word with
  | nil => cases isWord_word
  | cons first word =>
    rw [isWord, Bool.and_eq_true] at isWord_word
    refine mt mem_cons.mp (not_or.mpr ⟨?_, fun c_mem => ?_⟩)
    · rintro rfl
      exact absurd isWord_word.1 (by simp [not_start])
    · exact absurd (all_eq_true.mp isWord_word.2 c c_mem) (by simp [not_later])

theorem not_mem_of_isFloat {value : List Char} {c : Char} (float : isFloat value)
    (other : isNumberChar c = false) : c ∉ value := by
  intro c_mem
  exact absurd (all_eq_true.mp (all_of_isFloat float) c c_mem) (by simp [other])

theorem not_mem_of_plainValue {value : List Char} (plain : isPlainValue value) : '\n' ∉ value := by
  intro feed
  exact absurd (all_eq_true.mp plain _ feed) (by decide)

theorem not_mem_rawLabels {labels : List (List Char × List Char)}
    (names : ∀ label ∈ labels, isLabelName label.1)
    (plain : ∀ label ∈ labels, isPlainValue label.2) : '\n' ∉ rawLabels labels := by
  induction labels with
  | nil => exact not_mem_nil
  | cons label more ih =>
    obtain ⟨name, names⟩ := forall_mem_cons.mp names
    obtain ⟨plain_value, plain⟩ := forall_mem_cons.mp plain
    obtain ⟨after, raw_eq, last, inner⟩ := rawLabels_cons label more []
    have not_name : '\n' ∉ label.1 := not_mem_of_isWord name rfl rfl
    have not_value := not_mem_of_plainValue plain_value
    have not_after : '\n' ∉ after := by
      by_cases ne : more = []
      · rw [last ne]
        decide
      · rw [inner ne]
        simpa using ih names plain
    rw [append_nil] at raw_eq
    rw [raw_eq]
    simp [not_name, not_value, not_after]

section Texts

variable {text result : List Char}

theorem readText_eq_self (plain : '\\' ∉ text) : readText text = some text := by
  induction text with
  | nil => rfl
  | cons c text ih =>
    obtain ⟨c_ne, rest⟩ := not_or.mp (mt mem_cons.mpr plain)
    rw [readText.eq_def]
    split
    · next is_nil => cases is_nil
    · next is_slash => exact absurd (cons.inj is_slash).1.symm c_ne
    · next is_slash => exact absurd (cons.inj is_slash).1.symm c_ne
    · next is_slash => exact absurd (cons.inj is_slash).1.symm c_ne
    · next is_cons =>
      obtain ⟨rfl, rfl⟩ := cons.inj is_cons
      rw [ih rest]
      rfl

theorem length_readText (read : readText text = some result) :
    result.length ≤ text.length ∧ (text.length ≤ result.length → '\\' ∉ text) := by
  fun_induction readText text generalizing result with
  | case1 =>
    obtain rfl := Option.some.inj read
    exact ⟨le_refl _, fun _ => not_mem_nil⟩
  | case2 text ih | case3 text ih =>
    obtain ⟨rest, read_rest, rfl⟩ := Option.map_eq_some_iff.mp read
    have shorter := (ih read_rest).1
    simp only [length_cons]
    exact ⟨by omega, fun longer => absurd longer (by omega)⟩
  | case4 => cases read
  | case5 c text slash feed other ih =>
    obtain ⟨rest, read_rest, rfl⟩ := Option.map_eq_some_iff.mp read
    obtain ⟨shorter, same⟩ := ih read_rest
    refine ⟨succ_le_succ shorter, fun longer => ?_⟩
    refine mt mem_cons.mp (not_or.mpr ⟨fun is_slash => ?_, same ?_⟩)
    · exact other is_slash.symm
    · exact le_of_succ_le_succ longer

theorem skipBlanks_eq_self_iff : skipBlanks text = text ↔ text.head?.all (!isBlank ·) := by
  cases text with
  | nil => exact iff_of_true rfl rfl
  | cons c text =>
    by_cases blank : isBlank c
    · have less : (skipBlanks (c :: text)).length < (c :: text).length := by
        rw [skipBlanks, dropWhile_cons_of_pos blank]
        exact lt_succ_of_le (dropWhile_suffix _).length_le
      refine iff_of_false (fun same => ?_) (by simp [blank])
      rw [same] at less
      exact lt_irrefl _ less
    · exact iff_of_true (skipBlanks_cons (eq_false_of_ne_true blank)) (by simp [blank])

theorem isPlainText_iff :
    isPlainText text ↔ skipBlanks text = text ∧ '\\' ∉ text ∧ '\n' ∉ text := by
  rw [isPlainText, Bool.and_eq_true, skipBlanks_eq_self_iff, all_eq_true]
  refine and_congr_right fun _ => ⟨fun clean => ⟨fun slash => ?_, fun feed => ?_⟩, ?_⟩
  · exact absurd (clean _ slash) (by decide)
  · exact absurd (clean _ feed) (by decide)
  · rintro ⟨not_slash, not_feed⟩ c c_mem
    have slash : c ≠ '\\' := fun slash => not_slash (slash ▸ c_mem)
    have feed : c ≠ '\n' := fun feed => not_feed (feed ▸ c_mem)
    simp [slash, feed]

end Texts

section Entries

variable {name text value tail : List Char} {line : Sample}

section

variable (isName : isMetricName name)
include isName

theorem exists_cons_of_isMetricName : ∃ c word, name = c :: word ∧ isNameStart c := by
  cases name with
  | nil => cases isName
  | cons c word =>
    exact ⟨c, word, rfl, (Bool.and_eq_true _ _ ▸ isName : isNameStart c ∧ word.all isNameChar).1⟩

variable (tail : List Char)

theorem skipBlanks_append : skipBlanks (name ++ tail) = name ++ tail := by
  obtain ⟨c, word, rfl, starts⟩ := exists_cons_of_isMetricName isName
  exact skipBlanks_cons (solid_of_isNameStart starts)

theorem parseLine_help :
    parseLine ("# HELP ".toList ++ (name ++ tail)) = (parseHelp (name ++ tail)).map some := by
  have read : parseLine ("# HELP ".toList ++ (name ++ tail)) =
      (parseHelp (skipBlanks (name ++ tail))).map some := rfl
  rw [read, skipBlanks_append isName]

theorem parseLine_type :
    parseLine ("# TYPE ".toList ++ (name ++ tail)) = (parseType (name ++ tail)).map some := by
  have read : parseLine ("# TYPE ".toList ++ (name ++ tail)) =
      (parseType (skipBlanks (name ++ tail))).map some := rfl
  rw [read, skipBlanks_append isName]

theorem parseLine_sample : parseLine (name ++ tail) =
      (parseSample (name ++ tail)).map fun line => some (.sample line) := by
  obtain ⟨c, word, rfl, starts⟩ := exists_cons_of_isMetricName isName
  rw [parseLine, skipBlanks_append isName]
  split
  · next is_nil => cases is_nil
  · next is_comment =>
    obtain rfl := (cons.inj is_comment).1
    exact absurd starts (by decide)
  · rfl

theorem parseHelp_append (text : List Char) :
    parseHelp (name ++ ' ' :: text) = (readText (skipBlanks text)).map (.help name) := by
  rw [parseHelp, readWord_append isName rfl]
  exact Option.map_eq_bind.symm

theorem parseType_append {kind : List Char} (known : kind ∈ types) :
    parseType (name ++ ' ' :: kind) = some (.type name kind) := by
  have solid : kind.all (!isBlank ·) ∧ skipBlanks (' ' :: kind) = kind := by
    revert kind
    decide
  have read_kind : token (skipBlanks (' ' :: kind)) = (kind, []) := by
    rw [solid.2, token_eq_self solid.1]
  rw [parseType, readWord_append isName rfl]
  simp only [Option.bind_eq_bind, Option.bind_some, read_kind, contains_iff_mem.mpr known]
  rfl

end

theorem solid_of_isFloat (float : isFloat value) : ∀ c ∈ value, isBlank c = false :=
  fun c c_mem => isBlank_eq_false (all_eq_true.mp (all_of_isFloat float) c c_mem) rfl rfl

theorem skipBlanks_value (float : isFloat value) : skipBlanks (' ' :: value) = value := by
  cases value with
  | nil => rfl
  | cons c value =>
    exact skipBlanks_cons (solid_of_isFloat float c mem_cons_self)

theorem token_value (float : isFloat value) : token value = (value, []) := by
  refine token_eq_self (all_eq_true.mpr fun c c_mem => ?_)
  rw [solid_of_isFloat float c c_mem]
  rfl

theorem readLabelSet_raw {labels : List (List Char × List Char)}
    (names : ∀ label ∈ labels, isLabelName label.1)
    (plain : ∀ label ∈ labels, isPlainValue label.2) (float : isFloat value) :
    readLabelSet (rawLabelSet labels ++ ' ' :: value) = some (labels, ' ' :: value) := by
  by_cases ne : labels = []
  · have no_brace : expect '{' (' ' :: value) = none := by
      rw [expect, skipBlanks_value float]
      cases value with
      | nil => rfl
      | cons c value =>
        refine if_neg ?_
        rintro rfl
        exact not_mem_of_isFloat float rfl mem_cons_self
    rw [rawLabelSet, if_pos ne, nil_append, readLabelSet, no_brace, ne]
  · rw [rawLabelSet, if_neg ne, cons_append, readLabelSet, expect_cons rfl]
    refine readLabels_append ne names plain ?_ _
    rw [length_append]
    exact le_succ_of_le (le_add_right_of_le (length_le_rawLabels labels))

theorem head_rawLabelSet (labels : List (List Char × List Char)) (value : List Char) :
    (rawLabelSet labels ++ ' ' :: value).head?.all (!isNameChar ·) := by
  by_cases ne : labels = []
  · rw [rawLabelSet, if_pos ne]
    rfl
  · rw [rawLabelSet, if_neg ne]
    rfl

theorem parseSample_raw (valid : (sample line).Valid)
    (plain : ∀ label ∈ line.labels, isPlainValue label.2) :
    parseSample (sample line).raw = some { line with timestamp := none } := by
  obtain ⟨isName, names, float⟩ := valid
  have read_value : token (skipBlanks (' ' :: line.value)) = (line.value, []) := by
    rw [skipBlanks_value float, token_value float]
  have no_timestamp : readTimestamp [] = some none := rfl
  simp only [raw_sample, parseSample, readWord_append isName (head_rawLabelSet _ _),
    readLabelSet_raw names plain float, Option.bind_eq_bind, Option.bind_some, read_value,
    no_timestamp, if_pos float]

theorem not_mem_of_mem_types : ∀ kind ∈ types, '\n' ∉ kind := by
  decide

theorem not_mem_raw_sample (valid : (sample line).Valid)
    (plain : ∀ label ∈ line.labels, isPlainValue label.2) : '\n' ∉ (sample line).raw := by
  obtain ⟨isName, names, float⟩ := valid
  have not_name : '\n' ∉ line.name := not_mem_of_isWord isName rfl rfl
  have not_value : '\n' ∉ line.value := not_mem_of_isFloat float rfl
  have not_labels : '\n' ∉ rawLabelSet line.labels := by
    rw [rawLabelSet]
    split
    · exact not_mem_nil
    · simpa using not_mem_rawLabels names plain
  rw [raw_sample]
  simp [not_name, not_value, not_labels]

theorem not_mem_raw_type {kind : List Char} (valid : (type name kind).Valid) :
    '\n' ∉ (type name kind).raw := by
  have not_name : '\n' ∉ name := not_mem_of_isWord valid.1 rfl rfl
  have not_kind : '\n' ∉ kind := not_mem_of_mem_types kind valid.2
  rw [raw_type]
  simp [not_name, not_kind]

theorem parseLine_raw {entry : Entry} (valid : entry.Valid) (plain : entry.Plain) :
    '\n' ∉ entry.raw ∧ parseLine entry.raw = some (some entry) := by
  cases entry with
  | help name text =>
    have not_name : '\n' ∉ name := not_mem_of_isWord valid rfl rfl
    obtain ⟨solid, not_slash, not_feed⟩ := isPlainText_iff.mp plain
    constructor
    · rw [raw_help]
      simp [not_name, not_feed]
    · rw [raw_help, parseLine_help valid, parseHelp_append valid, solid, readText_eq_self not_slash]
      rfl
  | type name kind =>
    refine ⟨not_mem_raw_type valid, ?_⟩
    rw [raw_type, parseLine_type valid.1, parseType_append valid.1 valid.2]
    rfl
  | sample line =>
    refine ⟨not_mem_raw_sample valid plain.1, ?_⟩
    have read := parseSample_raw valid plain.1
    have no_timestamp : { line with timestamp := none } = line := by
      rw [← plain.2]
    rw [no_timestamp] at read
    rw [raw_sample] at read ⊢
    rw [parseLine_sample valid.1, read]
    rfl

end Entries

variable {name text : List Char} {line : Sample}

theorem firstLine_append {left : List Char} (one : '\n' ∉ left) (right : List Char) :
    firstLine (left ++ right) = left ++ firstLine right := by
  refine takeWhile_append_of_pos fun c c_mem => ?_
  simpa using fun feed : c = '\n' => one (feed ▸ c_mem)

theorem firstLine_eq_self (one : '\n' ∉ text) : firstLine text = text := by
  rw [← append_nil text, firstLine_append one]
  rfl

theorem not_mem_firstLine (text : List Char) : '\n' ∉ firstLine text := by
  intro feed
  exact absurd (mem_takeWhile_imp feed) (by decide)

theorem isPlainText_of_readText (read : readText (skipBlanks (firstLine text)) = some text) :
    isPlainText text := by
  obtain ⟨less, not_slash⟩ := length_readText read
  have first_prefix : firstLine text <+: text := takeWhile_prefix _
  have skip_suffix : skipBlanks (firstLine text) <:+ firstLine text := dropWhile_suffix _
  have skip_eq : skipBlanks (firstLine text) = firstLine text :=
    skip_suffix.eq_of_length_le (Nat.le_trans first_prefix.length_le less)
  have first_eq : firstLine text = text :=
    first_prefix.eq_of_length_le (Nat.le_trans less skip_suffix.length_le)
  rw [skip_eq, first_eq] at not_slash
  rw [first_eq] at skip_eq
  have not_feed := not_mem_firstLine text
  rw [first_eq] at not_feed
  exact isPlainText_iff.mpr ⟨skip_eq, not_slash (le_refl _), not_feed⟩

theorem plain_of_parseSample (valid : (sample line).Valid)
    (parsed : parseSample (firstLine (sample line).raw) = some line) :
    (sample line).Plain := by
  have not_name : '\n' ∉ line.name := not_mem_of_isWord valid.1 rfl rfl
  have plain : ∀ label ∈ line.labels, isPlainValue label.2 := by
    by_cases ne : line.labels = []
    · rw [ne]
      exact fun _ mem => nomatch mem
    · obtain ⟨afterName, afterLabels, read_name, read_labels, -⟩ := parseSample_eq_some parsed
      have name_eq := (eq_append_of_readWord read_name).1
      rw [raw_sample, firstLine_append not_name, append_cancel_left_eq] at name_eq
      have brace : firstLine (rawLabelSet line.labels ++ ' ' :: line.value) =
          '{' :: firstLine (rawLabels line.labels ++ ' ' :: line.value) := by
        rw [rawLabelSet, if_neg ne]
        rfl
      rw [← name_eq, brace, readLabelSet, expect_cons rfl] at read_labels
      exact plain_of_readLabels valid.2.1 read_labels ( takeWhile_prefix _)
        (not_mem_firstLine _)
  refine ⟨plain, ?_⟩
  rw [firstLine_eq_self (not_mem_raw_sample valid plain), parseSample_raw valid plain] at parsed
  rw [← Option.some.inj parsed]

theorem plain_of_parseLine {entry : Entry} (valid : entry.Valid) {found : Option Entry}
    (parsed : parseLine (firstLine entry.raw) = some found) :
    ∃ other, found = some other ∧ (other = entry → entry.Plain) := by
  cases entry with
  | help name text =>
    have not_name : '\n' ∉ name := not_mem_of_isWord valid rfl rfl
    have cut : firstLine (help name text).raw =
        "# HELP ".toList ++ (name ++ ' ' :: firstLine text) := by
      rw [raw_help, firstLine_append (by decide), firstLine_append not_name]
      rfl
    rw [cut, parseLine_help valid, parseHelp_append valid, Option.map_map] at parsed
    obtain ⟨result, read, rfl⟩ := Option.map_eq_some_iff.mp parsed
    refine ⟨.help name result, rfl, fun same => ?_⟩
    obtain ⟨-, rfl⟩ := help.inj same
    exact isPlainText_of_readText read
  | type name kind =>
    rw [firstLine_eq_self (not_mem_raw_type valid), (parseLine_raw valid trivial).2] at parsed
    exact ⟨.type name kind, (Option.some.inj parsed).symm, fun _ => trivial⟩
  | sample line =>
    have not_name : '\n' ∉ line.name := not_mem_of_isWord valid.1 rfl rfl
    have cut : firstLine (sample line).raw =
        line.name ++ firstLine (rawLabelSet line.labels ++ ' ' :: line.value) := by
      rw [raw_sample, firstLine_append not_name]
    rw [cut, parseLine_sample valid.1, ← cut] at parsed
    obtain ⟨other, parsed_sample, rfl⟩ := Option.map_eq_some_iff.mp parsed
    refine ⟨.sample other, rfl, fun same => ?_⟩
    obtain rfl := sample.inj same
    exact plain_of_parseSample valid parsed_sample

theorem parse_rawDocument_iff (entries : List Entry) : parse (rawDocument entries) = some entries ↔
      ∀ entry ∈ entries, entry.Valid ∧ entry.Plain := by
  constructor
  · intro parsed
    have valid := valid_of_parse parsed
    induction entries with
    | nil => exact fun _ mem => nomatch mem
    | cons entry entries ih =>
      obtain ⟨valid_entry, valid⟩ := forall_mem_cons.mp valid
      obtain ⟨left, split_eq, one_line⟩ := exists_firstLine entry.raw (rawDocument entries)
      rw [rawDocument_cons, split_eq, parse_append (not_mem_firstLine _)] at parsed
      obtain ⟨found, parsed_line, parsed_rest⟩ := Option.bind_eq_some_iff.mp parsed
      obtain ⟨others, parsed_others, result⟩ := Option.map_eq_some_iff.mp parsed_rest
      obtain ⟨other, rfl, plain⟩ := plain_of_parseLine valid_entry parsed_line
      obtain ⟨same, others_eq⟩ := cons.inj result
      have plain_entry := plain same
      rw [one_line (parseLine_raw valid_entry plain_entry).1] at parsed_others
      have parsed_entries := parsed_others.trans (congrArg some others_eq)
      exact forall_mem_cons.mpr ⟨⟨valid_entry, plain_entry⟩, ih parsed_entries valid⟩
  · intro fine
    induction entries with
    | nil => rfl
    | cons entry entries ih =>
      obtain ⟨⟨valid, plain⟩, fine⟩ := forall_mem_cons.mp fine
      obtain ⟨one, parsed_line⟩ := parseLine_raw valid plain
      rw [rawDocument_cons, parse_append one, parsed_line, Option.bind_some, ih fine]
      rfl

end PrometheusText
