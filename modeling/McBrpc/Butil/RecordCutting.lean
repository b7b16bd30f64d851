import McBrpc.Butil.RecordIO

/-!
# What one call of the reader does to the bytes in front of it

The calls of the reader on a buffer are those on the bytes in it.  A search stops at the first
magic or keeps the last three bytes.  A record is cut in the same way whatever follows it, as long
as the heads of its metas are in the buffer.
-/

namespace McBrpc

open List
namespace RecordIO

def StartsWithMagic (text : List UInt8) : Prop := text.take 4 = recordMagic

instance : DecidablePred StartsWithMagic := fun _ => inferInstanceAs (Decidable (_ = _))

variable {text : List UInt8}

theorem startsWithMagic_append {more : List UInt8} (long : 4 ≤ text.length) :
    StartsWithMagic (text ++ more) ↔ StartsWithMagic text := by
  rw [StartsWithMagic, StartsWithMagic, take_append_of_le_length long]

theorem StartsWithMagic.length (magic : StartsWithMagic text) : 4 ≤ text.length := by
  have lengths := congrArg List.length magic
  simp [recordMagic] at lengths
  omega

theorem findMagic_eq_none_iff (text : List UInt8) :
    findMagic text = none ↔ ∀ j, ¬StartsWithMagic (text.drop j) := by
  induction text with
  | nil => simp [findMagic, StartsWithMagic, recordMagic]
  | cons byte rest ih =>
    rw [findMagic]
    split
    · rename_i magic
      exact iff_of_false (by simp) fun none => none 0 magic
    · rename_i other
      rw [Option.map_eq_none_iff, ih]
      constructor
      · intro none j
        cases j with
        | zero => exact other
        | succ j => exact none j
      · exact fun none j => none (j + 1)

theorem findMagic_eq_some {i : Nat} (found : findMagic text = some i) :
    StartsWithMagic (text.drop i) ∧ ∀ j < i, ¬StartsWithMagic (text.drop j) := by
  induction text generalizing i with
  | nil => simp [findMagic] at found
  | cons byte rest ih =>
    rw [findMagic] at found
    split at found
    · rename_i magic
      obtain rfl : 0 = i := by simpa using found
      exact ⟨magic, by simp⟩
    · rename_i other
      obtain ⟨k, inRest, rfl⟩ := Option.map_eq_some_iff.mp found
      obtain ⟨magic, before⟩ := ih inRest
      refine ⟨magic, fun j less => ?_⟩
      cases j with
      | zero => exact other
      | succ j => exact before j (by omega)

/-- The search of the source: it stops at the first magic, or with the last three bytes left. -/
def Searched (text : List UInt8) (ncut : Nat) (seek : Seek (List UInt8)) : Prop :=
  ∃ i, (∀ j < i, ¬StartsWithMagic (text.drop j)) ∧ seek.source = text.drop i ∧
    seek.ncut = ncut + i ∧
    (seek.found = true ∧ StartsWithMagic (text.drop i) ∨
      seek.found = false ∧ (text.drop i).length < 4 ∧ (0 < i → i + 3 ≤ text.length))

theorem startsWithMagic_window {n j : Nat} (inside : j + 4 ≤ n) :
    StartsWithMagic ((text.take n).drop j) ↔ StartsWithMagic (text.drop j) := by
  rw [StartsWithMagic, StartsWithMagic, drop_take, take_take, Nat.min_eq_left (by omega)]

theorem searchMagic_spec (fuel : Nat) (text : List UInt8) (ncut : Nat)
    (enough : text.length < fuel) :
    Searched text ncut (searchMagic fuel text ncut) ∧
      (searchMagic fuel text ncut).searched = true := by
  induction fuel generalizing text ncut with
  | zero => omega
  | succ fuel ih =>
    have size : (text.take 512).length = min 512 text.length := length_take
    simp only [searchMagic, ByteSource.copyTo_list, ByteSource.popFront_list]
    split
    · rename_i short
      exact ⟨⟨0, by simp, rfl, rfl, .inr ⟨rfl, by simp; omega, by simp⟩⟩, rfl⟩
    · rename_i long
      split
      · rename_i i found
        obtain ⟨magic, before⟩ := findMagic_eq_some found
        have inside := magic.length
        rw [length_drop] at inside
        refine ⟨⟨i, fun j less => ?_, rfl, rfl, .inl ⟨rfl, ?_⟩⟩, rfl⟩
        · rw [← startsWithMagic_window (n := 512) (by omega)]
          exact before j less
        · rwa [← startsWithMagic_window (n := 512) (by omega)]
      · rename_i absent
        have before : ∀ j, j + 4 ≤ 512 → ¬StartsWithMagic (text.drop j) := by
          intro j less
          rw [← startsWithMagic_window less]
          exact (findMagic_eq_none_iff _).mp absent j
        split
        · rename_i last
          refine ⟨⟨(text.take 512).length + 1 - 4, fun j less => before j (by omega), rfl, rfl,
            .inr ⟨rfl, ?_, ?_⟩⟩, rfl⟩
          · rw [length_drop]
            omega
          · omega
        · rename_i full
          have advance : (text.take 512).length + 1 - 4 = 509 := by omega
          rw [advance]
          obtain ⟨⟨i, behind, source, count, out⟩, searched⟩ :=
            ih (text.drop 509) (ncut + 509) (by rw [length_drop]; omega)
          simp only [drop_drop, length_drop] at behind source out
          refine ⟨⟨509 + i, fun j less => ?_, source, by rw [count, Nat.add_assoc], ?_⟩, searched⟩
          · obtain inWindow | beyond := Nat.lt_or_ge j 509
            · exact before j (by omega)
            · obtain ⟨k, rfl⟩ := Nat.exists_eq_add_of_le beyond
              exact behind k (by omega)
          · rcases out with found | ⟨absent, short, popped⟩
            · exact .inl found
            · refine .inr ⟨absent, by rw [length_drop]; exact short, fun _ => ?_⟩
              omega

theorem Searched.short {ncut : Nat} {seek : Seek (List UInt8)} (result : Searched text ncut seek)
    (absent : seek.found = false) : seek.source.length < 4 := by
  obtain ⟨i, -, source, -, ⟨found, -⟩ | ⟨-, short, -⟩⟩ := result
  · rw [absent] at found
    cases found
  · rwa [source]

variable (ncut : Nat)

theorem seek_short (short : text.length < 4) : cutUntilNextRecordCandidate text ncut =
      { found := false, searched := false, source := text, ncut } := by
  have size : ¬(text.take 4).length = 4 := by
    rw [length_take]
    omega
  simp only [cutUntilNextRecordCandidate, ByteSource.copyTo_list, ByteSource.popFront_list]
  rw [if_pos size]

theorem seek_magic (magic : StartsWithMagic text) :
    Searched (text.drop 4) (ncut + 4) (cutUntilNextRecordCandidate text ncut) ∧
      (cutUntilNextRecordCandidate text ncut).searched = true := by
  have size : ¬(text.take 4).length ≠ 4 := by
    have long := magic.length
    rw [length_take]
    omega
  simp only [cutUntilNextRecordCandidate, ByteSource.copyTo_list, ByteSource.popFront_list]
  rw [if_neg size, if_pos (show text.take 4 = recordMagic from magic)]
  exact searchMagic_spec _ _ _ (Nat.lt_succ_self _)

theorem seek_other (long : 4 ≤ text.length) (other : ¬StartsWithMagic text) :
    Searched text ncut (cutUntilNextRecordCandidate text ncut) ∧
      (cutUntilNextRecordCandidate text ncut).searched = true := by
  have size : ¬(text.take 4).length ≠ 4 := by
    rw [length_take]
    omega
  simp only [cutUntilNextRecordCandidate, ByteSource.copyTo_list, ByteSource.popFront_list]
  rw [if_neg size, if_neg (show ¬text.take 4 = recordMagic from other)]
  exact searchMagic_spec _ _ _ (Nat.lt_succ_self _)

section Sources

variable {σ : Type} [ByteSource σ]

open ByteSource

variable (tmp : Nat) (source : σ) (ncut : Nat)

theorem cutMetaHead_bytes : cutMetaHead tmp (bytes source) =
      { nameSize := (cutMetaHead tmp source).nameSize
        name := (cutMetaHead tmp source).name
        tmp := (cutMetaHead tmp source).tmp
        source := bytes (cutMetaHead tmp source).source } := by
  simp [cutMetaHead]

theorem cutMetas_bytes (dataSize fuel tmp used : Nat) (rec : Record) (source : σ) (ncut : Nat) :
    cutMetas dataSize fuel tmp used rec (bytes source) ncut =
      { result := (cutMetas dataSize fuel tmp used rec source ncut).result
        source := bytes (cutMetas dataSize fuel tmp used rec source ncut).source
        ncut := (cutMetas dataSize fuel tmp used rec source ncut).ncut } := by
  induction fuel generalizing tmp used rec source ncut with
  | zero => rfl
  | succ fuel ih =>
    rw [cutMetas, cutMetas, cutMetaHead_bytes]
    simp only [cutn_list]
    split
    · rfl
    · split
      · rfl
      · rw [cutn_fst, ← bytes_cutn, ih]
        split <;> rfl

theorem cutAnnouncedMetas_bytes : cutAnnouncedMetas tmp (bytes source) ncut =
      { result := (cutAnnouncedMetas tmp source ncut).result
        source := bytes (cutAnnouncedMetas tmp source ncut).source
        ncut := (cutAnnouncedMetas tmp source ncut).ncut } := by
  rw [cutAnnouncedMetas, cutAnnouncedMetas]
  split
  · rw [cutMetas_bytes]
  · rfl

theorem cutBody_bytes : cutBody tmp (bytes source) ncut =
      { outcome := (cutBody tmp source ncut).outcome
        source := bytes (cutBody tmp source ncut).source
        ncut := (cutBody tmp source ncut).ncut } := by
  simp only [cutBody, popFront_list]
  rw [← bytes_popFront, cutAnnouncedMetas_bytes]
  simp only [cutn_list]
  split
  · rfl
  · rw [cutn_fst, bytes_cutn]

theorem cutRecord_bytes (limit : Nat) (source : σ) (ncut : Nat) :
    cutRecord limit (bytes source) ncut =
      { outcome := (cutRecord limit source ncut).outcome
        source := bytes (cutRecord limit source ncut).source
        ncut := (cutRecord limit source ncut).ncut } := by
  simp only [cutRecord, copyTo_list, copyTo_fst, remainingBytes_eq, bytes_copyTo, bytes_list]
  split
  · simp
  · split
    · simp
    · split
      · simp
      · rw [← bytes_copyTo source 9, cutBody_bytes]

theorem searchMagic_bytes (fuel : Nat) (source : σ) (ncut : Nat) :
    searchMagic fuel (bytes source) ncut =
      { found := (searchMagic fuel source ncut).found
        searched := (searchMagic fuel source ncut).searched
        source := bytes (searchMagic fuel source ncut).source
        ncut := (searchMagic fuel source ncut).ncut } := by
  induction fuel generalizing source ncut with
  | zero => rfl
  | succ fuel ih =>
    simp only [searchMagic, copyTo_list, popFront_list, copyTo_fst]
    split
    · simp
    · split
      · simp
      · split
        · simp
        · rw [← ih]
          simp

theorem seek_bytes : cutUntilNextRecordCandidate (bytes source) ncut =
      { found := (cutUntilNextRecordCandidate source ncut).found
        searched := (cutUntilNextRecordCandidate source ncut).searched
        source := bytes (cutUntilNextRecordCandidate source ncut).source
        ncut := (cutUntilNextRecordCandidate source ncut).ncut } := by
  simp only [cutUntilNextRecordCandidate, copyTo_list, popFront_list, copyTo_fst,
    remainingBytes_eq, bytes_popFront, bytes_copyTo, bytes_list]
  split
  · simp
  · split
    · rw [← searchMagic_bytes]
      simp
    · rw [← searchMagic_bytes]
      simp

end Sources

/-- The heads that the loop over the metas cuts are completely in the buffer. -/
def headsComplete (dataSize : Nat) : Nat → Nat → Nat → Record → List UInt8 → Bool
  | 0, _, _, _, _ => true
  | fuel + 1, tmp, consumed, rec, text =>
    let head := cutMetaHead tmp text
    let metaSize := head.tmp % 2 ^ 31
    5 + head.nameSize ≤ text.length &&
      match rec.mutableMeta head.name with
      | none => true
      | some withMeta =>
        dataSize < consumed + 5 + head.nameSize + metaSize || head.tmp < 2 ^ 31 ||
          headsComplete dataSize fuel head.tmp (consumed + (5 + head.nameSize + metaSize))
            (withMeta (head.source.take metaSize)) (head.source.drop metaSize)

/-- If a whole record is in the buffer, so are the heads that are cut with it; they can lie beyond
its data when the record is damaged. -/
def headsThere (maxRecordSize : Nat) (text : List UInt8) : Bool :=
  match readHead maxRecordSize (text.take 9) with
  | .invalid => true
  | .valid tmp =>
    text.length < tmp % 2 ^ 31 + 9 || tmp < 2 ^ 31 ||
      headsComplete (tmp % 2 ^ 31) (tmp % 2 ^ 31 + 1) tmp 0 .empty (text.drop 9)

variable {dataSize fuel tmp used ncut : Nat} {rec : Record} {text : List UInt8}

theorem headsComplete_succ
    (heads : headsComplete dataSize (fuel + 1) tmp used rec text = true) :
    5 + (cutMetaHead tmp text).nameSize ≤ text.length ∧
      ∀ withMeta, used + 5 + (cutMetaHead tmp text).nameSize +
          (cutMetaHead tmp text).tmp % 2 ^ 31 ≤ dataSize →
        rec.mutableMeta (cutMetaHead tmp text).name = some withMeta →
        2 ^ 31 ≤ (cutMetaHead tmp text).tmp →
        headsComplete dataSize fuel (cutMetaHead tmp text).tmp
          (used + (5 + (cutMetaHead tmp text).nameSize + (cutMetaHead tmp text).tmp % 2 ^ 31))
          (withMeta ((cutMetaHead tmp text).source.take ((cutMetaHead tmp text).tmp % 2 ^ 31)))
          ((cutMetaHead tmp text).source.drop ((cutMetaHead tmp text).tmp % 2 ^ 31)) = true := by
  simp only [headsComplete, Bool.and_eq_true, decide_eq_true_eq] at heads
  refine ⟨heads.1, fun withMeta fits added another => ?_⟩
  have later := heads.2
  simp only [added, Bool.or_eq_true, decide_eq_true_eq] at later
  rcases later with (beyond | last) | full
  · omega
  · omega
  · exact full

variable (more : List UInt8)

theorem cutMetaHead_append (full : 5 + (cutMetaHead tmp text).nameSize ≤ text.length) :
    cutMetaHead tmp (text ++ more) =
      { cutMetaHead tmp text with source := (cutMetaHead tmp text).source ++ more } := by
  cases text with
  | nil => simp at full
  | cons size rest =>
    simp only [cutMetaHead, ByteSource.cut1_list, ByteSource.cutn_list, head?_cons,
      Option.getD_some, tail_cons, length_cons, cons_append] at full ⊢
    have name : size.toNat ≤ rest.length := by omega
    have word : 4 ≤ (rest.drop size.toNat).length := by
      rw [length_drop]
      omega
    rw [take_append_of_le_length name, drop_append_of_le_length name,
      take_append_of_le_length word, drop_append_of_le_length word]

theorem length_cutMetaHead (full : 5 + (cutMetaHead tmp text).nameSize ≤ text.length) :
    (cutMetaHead tmp text).source.length + (5 + (cutMetaHead tmp text).nameSize) =
      text.length := by
  cases text with
  | nil => simp at full
  | cons size rest =>
    simp only [cutMetaHead, ByteSource.cut1_list, ByteSource.cutn_list, head?_cons,
      Option.getD_some, tail_cons, length_cons, length_drop] at full ⊢
    omega

theorem cutMetas_append (there : dataSize ≤ used + text.length)
    (heads : headsComplete dataSize fuel tmp used rec text = true) :
    cutMetas dataSize fuel tmp used rec (text ++ more) ncut =
      { cutMetas dataSize fuel tmp used rec text ncut with
        source := (cutMetas dataSize fuel tmp used rec text ncut).source ++ more } := by
  induction fuel generalizing tmp used rec text ncut with
  | zero => rfl
  | succ fuel ih =>
    obtain ⟨full, later⟩ := headsComplete_succ heads
    have length := length_cutMetaHead full
    rw [cutMetas, cutMetas, cutMetaHead_append more full]
    simp only [ByteSource.cutn_list]
    split
    · rfl
    · rename_i fits
      split
      · rfl
      · rename_i withMeta added
        have data : (cutMetaHead tmp text).tmp % 2 ^ 31 ≤
            (cutMetaHead tmp text).source.length := by
          omega
        rw [take_append_of_le_length data, drop_append_of_le_length data]
        split
        · rename_i another
          refine ih ?_ (later withMeta (by omega) added another)
          rw [length_drop]
          omega
        · rfl

theorem cutMetas_payload {result : Record} {total : Nat} (there : dataSize ≤ used + text.length)
    (heads : headsComplete dataSize fuel tmp used rec text = true)
    (cut : (cutMetas dataSize fuel tmp used rec text ncut).result = some (result, total)) :
    dataSize ≤ total + (cutMetas dataSize fuel tmp used rec text ncut).source.length := by
  induction fuel generalizing tmp used rec text ncut with
  | zero => cases cut
  | succ fuel ih =>
    obtain ⟨full, later⟩ := headsComplete_succ heads
    have length := length_cutMetaHead full
    rw [cutMetas] at cut ⊢
    simp only [ByteSource.cutn_list] at cut ⊢
    split at cut
    · cases cut
    · rename_i fits
      rw [if_neg fits]
      split at cut
      · cases cut
      · rename_i withMeta added
        split at cut
        · rename_i another
          rw [if_pos another]
          refine ih ?_ (later withMeta (by omega) added another) cut
          rw [length_drop]
          omega
        · rename_i last
          rw [if_neg last]
          obtain ⟨-, rfl⟩ : _ ∧ _ = total := by simpa using cut
          rw [length_drop]
          omega

theorem cutBody_append (there : tmp % 2 ^ 31 + 9 ≤ text.length) (heads : 2 ^ 31 ≤ tmp →
      headsComplete (tmp % 2 ^ 31) (tmp % 2 ^ 31 + 1) tmp 0 .empty (text.drop 9) = true) :
    cutBody tmp (text ++ more) ncut =
      { cutBody tmp text ncut with source := (cutBody tmp text ncut).source ++ more } := by
  have front : 9 ≤ text.length := by omega
  have data : tmp % 2 ^ 31 ≤ 0 + (text.drop 9).length := by
    rw [length_drop]
    omega
  have metas : cutAnnouncedMetas tmp (text.drop 9 ++ more) (ncut + 9) =
      { cutAnnouncedMetas tmp (text.drop 9) (ncut + 9) with
        source := (cutAnnouncedMetas tmp (text.drop 9) (ncut + 9)).source ++ more } := by
    rw [cutAnnouncedMetas, cutAnnouncedMetas]
    split
    · rename_i announced
      exact cutMetas_append more data (heads announced)
    · rfl
  have payload : ∀ result total,
      (cutAnnouncedMetas tmp (text.drop 9) (ncut + 9)).result = some (result, total) →
      tmp % 2 ^ 31 - total ≤ (cutAnnouncedMetas tmp (text.drop 9) (ncut + 9)).source.length := by
    intro result total cut
    rw [cutAnnouncedMetas] at cut ⊢
    split at cut
    · rename_i announced
      have behind := cutMetas_payload data (heads announced) cut
      rw [if_pos announced]
      omega
    · rename_i plain
      rw [if_neg plain]
      exact (Nat.sub_le _ _).trans (by simpa using data)
  simp only [cutBody, ByteSource.popFront_list, drop_append_of_le_length front, metas,
    ByteSource.cutn_list]
  split
  · rfl
  · rename_i result total cut
    have enough := payload result total cut
    rw [take_append_of_le_length enough, drop_append_of_le_length enough]

/-- Once `CutRecord` can decide, the bytes behind the record do not matter. -/
theorem cutRecord_append {limit : Nat} (ncut : Nat) (more : List UInt8)
    (heads : headsThere limit text = true)
    (decided : (cutRecord limit text ncut).outcome ≠ .notEnough) :
    cutRecord limit (text ++ more) ncut =
      { cutRecord limit text ncut with
        source := (cutRecord limit text ncut).source ++ more } := by
  simp only [cutRecord, ByteSource.copyTo_list, ByteSource.remainingBytes_eq,
    ByteSource.bytes_list, length_take] at decided ⊢
  split at decided
  · exact absurd rfl decided
  · rename_i nine
    have front : 9 ≤ text.length := by omega
    have longer : ¬min 9 (text ++ more).length ≠ 9 := by
      rw [length_append]
      omega
    rw [if_neg longer, if_neg nine, take_append_of_le_length front]
    split at decided
    · rfl
    · rename_i tmp valid
      split at decided
      · exact absurd rfl decided
      · rename_i there
        have longThere : ¬(text ++ more).length < tmp % 2 ^ 31 + 9 := by
          rw [length_append]
          omega
        rw [if_neg there, if_neg longThere]
        refine cutBody_append more (Nat.le_of_not_lt there) fun announced => ?_
        simp only [headsThere, valid, Bool.or_eq_true, decide_eq_true_eq] at heads
        rcases heads with (partly | plain) | full
        · exact absurd partly there
        · omega
        · exact full

theorem cutRecord_notEnough {limit : Nat}
    (short : (cutRecord limit text ncut).outcome = .notEnough) :
    cutRecord limit text ncut = { outcome := .notEnough, source := text, ncut } := by
  simp only [cutRecord, ByteSource.copyTo_list, ByteSource.remainingBytes_eq,
    ByteSource.bytes_list] at short ⊢
  split at short
  · rename_i few
    rw [if_pos few]
  · rename_i nine
    rw [if_neg nine]
    split at short
    · cases short
    · rename_i tmp valid
      split at short
      · rename_i few
        rw [if_pos few]
      · rename_i there
        simp only [cutBody] at short
        split at short <;> cases short

theorem length_cutMetas_le (dataSize fuel tmp used : Nat) (rec : Record) (text : List UInt8)
    (ncut : Nat) :
    (cutMetas dataSize fuel tmp used rec text ncut).source.length ≤ text.length := by
  induction fuel generalizing tmp used rec text ncut with
  | zero => exact Nat.le_refl _
  | succ fuel ih =>
    have head : (cutMetaHead tmp text).source.length ≤ text.length := by
      simp only [cutMetaHead, ByteSource.cut1_list, ByteSource.cutn_list, length_drop, length_tail]
      omega
    simp only [cutMetas, ByteSource.cutn_list]
    split
    · exact head
    · split
      · exact head
      · split
        · refine (ih ..).trans ?_
          rw [length_drop]
          omega
        · simp only [length_drop]
          omega

theorem length_cutBody_lt (tmp ncut : Nat) (long : 9 ≤ text.length) :
    (cutBody tmp text ncut).source.length < text.length := by
  have metas : (cutAnnouncedMetas tmp (text.drop 9) (ncut + 9)).source.length <
      text.length := by
    have behind : (text.drop 9).length < text.length := by
      rw [length_drop]
      omega
    rw [cutAnnouncedMetas]
    split
    · exact Nat.lt_of_le_of_lt (length_cutMetas_le ..) behind
    · exact behind
  simp only [cutBody, ByteSource.popFront_list, ByteSource.cutn_list]
  split
  · exact metas
  · simp only [length_drop]
    omega

theorem length_cutRecord (limit : Nat) (text : List UInt8) (ncut : Nat) :
    (cutRecord limit text ncut).source.length ≤ text.length ∧
      ∀ rec, (cutRecord limit text ncut).outcome = .record rec →
        (cutRecord limit text ncut).source.length < text.length := by
  simp only [cutRecord, ByteSource.copyTo_list]
  split
  · exact ⟨Nat.le_refl _, by simp⟩
  · rename_i nine
    rw [length_take] at nine
    split
    · exact ⟨Nat.le_refl _, by simp⟩
    · rename_i tmp valid
      split
      · exact ⟨Nat.le_refl _, by simp⟩
      · have less : (cutBody tmp text ncut).source.length < text.length :=
          length_cutBody_lt tmp ncut (by omega)
        exact ⟨Nat.le_of_lt less, fun _ _ => less⟩

theorem length_seek (text : List UInt8) (ncut : Nat) :
    (cutUntilNextRecordCandidate text ncut).source.length ≤ text.length ∧
      ((cutUntilNextRecordCandidate text ncut).found = true →
        (cutUntilNextRecordCandidate text ncut).source.length < text.length) := by
  obtain short | long := Nat.lt_or_ge text.length 4
  · simp [seek_short ncut short]
  · by_cases magic : StartsWithMagic text
    · obtain ⟨⟨i, -, source, -⟩, -⟩ := seek_magic ncut magic
      rw [source, length_drop, length_drop]
      omega
    · obtain ⟨⟨i, -, source, -, out⟩, -⟩ := seek_other ncut long magic
      rw [source, length_drop]
      refine ⟨by omega, fun found => ?_⟩
      -- the text does not start with a magic, so the candidate is further on
      have passed : i ≠ 0 := by
        rintro rfl
        rcases out with ⟨-, here⟩ | ⟨absent, -⟩
        · exact magic here
        · rw [absent] at found
          cases found
      omega

end RecordIO
end McBrpc
