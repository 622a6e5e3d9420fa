import Mathlib.Data.List.Basic
import ScriptEngine.Library.Strings
import ScriptEngine.Proofs.Number.Integers
import ScriptEngine.Proofs.Token.Encoding

/-!
# Ranges of bytes

The functions that take a string apart do it by two indices, which count from one and from behind
the end if they are negative.  A position is selected if it lies in the string and between what the
indices stand for.  The range that is computed holds the positions that are selected and no others,
and nothing that is computed on the way to it leaves the words of 64 bits.

## Main definitions

* `Text.position`, `Text.Selects` — the positions that two indices select.
* `Text.byteRange?` — the range, computed in words.
* `Text.bytesAt` — the bytes at the positions that are selected.

## Main results

* `Text.byteRange?_eq` — **the words are never left.**
* `Text.selects_iff_of_byteRange` — what a range holds.
* `Library.bytesIn_eq` — the bytes that are cut out are those at the positions selected.
* `Library.byteArguments_drop` — numbers are read back as the bytes they stand for.
* `Library.byte_exact` — **indices select the bytes at their positions**, and the bytes of a whole
  string give it back.
-/

namespace ScriptEngine

/-! ### Words -/

namespace Word

/-- An integer, if a word stands for it. -/
def signed? (i : Int) : Option Int := if IsSigned i then some i else none

/-- An integer as a word, if it is one. -/
def unsigned? (i : Int) : Option Nat := if 0 ≤ i ∧ i < count then some i.toNat else none

theorem signed?_eq {i : Int} (h : IsSigned i) : signed? i = some i := if_pos h

theorem unsigned?_eq {i : Int} (hlow : 0 ≤ i) (hhigh : i < count) : unsigned? i = some i.toNat :=
  if_pos ⟨hlow, hhigh⟩

end Word

namespace Text

/-- A position that is counted from behind the end, one sum after the other. -/
def fromEnd? (length index : Int) : Option Int := do
  let sum ← Word.signed? (length + index)
  Word.signed? (sum + 1)

/-- The first position of a range, which is not before the beginning. -/
def first? (length index : Int) : Option Int :=
  if index < 0 then (fromEnd? length index).map (max · 1)
  else some (if index = 0 then 1 else index)

/-- The last position of a range, which is not behind the end. -/
def last? (length index : Int) : Option Int :=
  if index < 0 then fromEnd? length index else some (min index length)

/-- The range of bytes that two indices select, if no length, sum, difference or bound on the way
to it leaves the words of 64 bits. -/
def byteRange? (length : Nat) (start stop : Int) : Option (Option (Nat × Nat)) := do
  let length ← Word.signed? length
  let first ← first? length start
  let last ← last? length stop
  if first ≤ last then
    let offset ← Word.unsigned? ((← Word.unsigned? first) - 1)
    some (some (offset, ← Word.unsigned? last))
  else some none

/-! ### Positions -/

/-- The position that an index stands for. -/
def position (length : Nat) (index : Int) : Int :=
  if index < 0 then length + index + 1 else index

/-- Whether two indices select a position of a string, which are counted from one. -/
def Selects (length : Nat) (start stop : Int) (p : Nat) : Prop :=
  (1 ≤ p ∧ p ≤ length) ∧ position length start ≤ p ∧ p ≤ position length stop

instance {length : Nat} {start stop : Int} {p : Nat} : Decidable (Selects length start stop p) :=
  inferInstanceAs (Decidable (_ ∧ _))

/-- The bytes of a text at the positions that two indices select, in their order. -/
def bytesAt (text : String) (start stop : Int) : List UInt8 :=
  (((bytes text).zipIdx 1).filter fun e => Selects text.utf8ByteSize start stop e.2).map Prod.fst

section Ranges

variable {length first last : Nat} {start stop : Int}

/-- The range goes from the position of its first index, or the beginning, to that of its second
one, or the end. -/
theorem byteRange_eq (length : Nat) (start stop : Int) :
    byteRange length start stop =
      if max (position length start) 1 ≤ min (position length stop) length then
        some ((max (position length start) 1).toNat - 1, (min (position length stop) length).toNat)
      else none := by
  have hfirst : (if start < 0 then max ((length : Int) + start + 1) 1
      else if start = 0 then 1 else start) = max (position length start) 1 := by
    unfold position
    split_ifs <;> omega
  have hlast : (if stop < 0 then (length : Int) + stop + 1 else min stop length) =
      min (position length stop) length := by
    unfold position
    split_ifs <;> omega
  rw [byteRange, hfirst, hlast]

/-- **What a range holds**: it is not empty, ends in the string, and has the positions that are
selected and no others. -/
theorem selects_iff_of_byteRange (h : byteRange length start stop = some (first, last)) :
    (first < last ∧ last ≤ length) ∧
      ∀ p, Selects length start stop p ↔ first + 1 ≤ p ∧ p ≤ last := by
  rw [byteRange_eq] at h
  split at h
  · cases h
    refine ⟨by omega, fun p => ?_⟩
    unfold Selects
    omega
  · cases h

/-- Where there is no range nothing is selected. -/
theorem not_selects_of_byteRange (h : byteRange length start stop = none) (p : Nat) :
    ¬ Selects length start stop p := by
  rw [byteRange_eq] at h
  split at h
  · cases h
  · unfold Selects
    omega

/-! ### The way to a range -/

theorem fromEnd?_eq {index : Int} (hlength : length < Word.half) (hindex : Word.IsSigned index)
    (hneg : index < 0) : fromEnd? length index = some (position length index) := by
  have hsum : Word.IsSigned (length + index) := by
    constructor <;> omega
  have hnext : Word.IsSigned (length + index + 1) := by
    constructor <;> omega
  rw [fromEnd?, Word.signed?_eq hsum, position, if_pos hneg]
  exact Word.signed?_eq hnext

theorem first?_eq (hlength : length < Word.half) (hstart : Word.IsSigned start) :
    first? length start = some (max (position length start) 1) := by
  unfold first?
  split
  · next hneg => rw [fromEnd?_eq hlength hstart hneg, Option.map_some]
  · next hneg =>
    rw [position, if_neg hneg]
    split <;> congr 1 <;> omega

theorem last?_eq (hlength : length < Word.half) (hstop : Word.IsSigned stop) :
    last? length stop = some (min (position length stop) length) := by
  unfold last?
  split
  · next hneg =>
    rw [fromEnd?_eq hlength hstop hneg, position, if_pos hneg]
    congr 1
    omega
  · next hneg => rw [position, if_neg hneg]

/-- **The words are never left** on the way to a range. -/
theorem byteRange?_eq (hlength : length < Word.half) (hstart : Word.IsSigned start)
    (hstop : Word.IsSigned stop) :
    byteRange? length start stop = some (byteRange length start stop) := by
  have hhalf : Word.half < Word.count := by decide
  have hsigned : Word.IsSigned length := by
    constructor <;> omega
  rw [byteRange?, byteRange_eq, Word.signed?_eq hsigned]
  simp only [Option.bind_eq_bind, Option.bind_some, first?_eq hlength hstart,
    last?_eq hlength hstop]
  split
  · next hle =>
    -- both bounds lie between one and the length, so that they are words
    rw [Word.unsigned?_eq (by omega) (by omega), Option.bind_some,
      Word.unsigned?_eq (by omega) (by omega), Option.bind_some,
      Word.unsigned?_eq (by omega) (by omega), Option.bind_some]
    congr 3
    omega
  · rfl

end Ranges

/-! ### Bytes -/

/-- A text has as many bytes as it is long. -/
theorem length_bytes (text : String) : (bytes text).length = text.utf8ByteSize := by
  have hbytes : text.toByteArray = (bytes text).toByteArray := by
    rw [bytes, ← List.utf8Encode, ← String.toByteArray_ofList, String.ofList_toList]
  rw [← String.size_toByteArray, hbytes, List.size_toByteArray]

/-- The middle of three lists are the entries at the positions behind the first one, up to where the
last one begins. -/
theorem filter_zipIdx_append {α : Type} (before inner behind : List α) :
    (((before ++ (inner ++ behind)).zipIdx 1).filter fun e =>
      before.length + 1 ≤ e.2 ∧ e.2 ≤ before.length + inner.length).map Prod.fst = inner := by
  have hbefore : ((before.zipIdx 1).filter fun e =>
      before.length + 1 ≤ e.2 ∧ e.2 ≤ before.length + inner.length) = [] := by
    refine List.filter_eq_nil_iff.2 fun e he => ?_
    have hlt := List.snd_lt_add_of_mem_zipIdx he
    simp only [decide_eq_true_eq]
    omega
  have hinner : ((inner.zipIdx (1 + before.length)).filter fun e =>
      before.length + 1 ≤ e.2 ∧ e.2 ≤ before.length + inner.length) =
      inner.zipIdx (1 + before.length) := by
    refine List.filter_eq_self.2 fun e he => ?_
    have hle := List.le_snd_of_mem_zipIdx he
    have hlt := List.snd_lt_add_of_mem_zipIdx he
    simp only [decide_eq_true_eq]
    omega
  have hbehind : ((behind.zipIdx (1 + before.length + inner.length)).filter fun e =>
      before.length + 1 ≤ e.2 ∧ e.2 ≤ before.length + inner.length) = [] := by
    refine List.filter_eq_nil_iff.2 fun e he => ?_
    have hle := List.le_snd_of_mem_zipIdx he
    simp only [decide_eq_true_eq]
    omega
  rw [List.zipIdx_append, List.zipIdx_append, List.filter_append, List.filter_append, hbefore,
    hinner, hbehind, List.append_nil, List.nil_append, List.zipIdx_map_fst]

/-- What is cut out of a list are the entries at the positions between the cuts. -/
theorem filter_zipIdx {α : Type} (bs : List α) {first last : Nat} (hlt : first < last)
    (hle : last ≤ bs.length) :
    ((bs.zipIdx 1).filter fun e => first + 1 ≤ e.2 ∧ e.2 ≤ last).map Prod.fst =
      (bs.drop first).take (last - first) := by
  have hsplit := filter_zipIdx_append (bs.take first) ((bs.drop first).take (last - first))
    ((bs.drop first).drop (last - first))
  have hfirst : (bs.take first).length = first := List.length_take_of_le (by omega)
  have hlast : first + ((bs.drop first).take (last - first)).length = last := by
    rw [List.length_take, List.length_drop]
    omega
  rw [List.take_append_drop, List.take_append_drop, hfirst, hlast] at hsplit
  exact hsplit

end Text

namespace Library

/-- **The bytes that are cut out are those at the positions selected.** -/
theorem bytesIn_eq (text : String) (start stop : Int) :
    bytesIn text start stop = Text.bytesAt text start stop := by
  unfold bytesIn Text.bytesAt
  cases hrange : Text.byteRange text.utf8ByteSize start stop with
  | none =>
    have hnone := Text.not_selects_of_byteRange hrange
    simp [hnone]
  | some range =>
    obtain ⟨first, last⟩ := range
    obtain ⟨⟨hlt, hle⟩, hselects⟩ := Text.selects_iff_of_byteRange hrange
    rw [← Text.length_bytes] at hle
    simp only [hselects]
    exact (Text.filter_zipIdx (Text.bytes text) hlt hle).symm

/-- One number more is one byte more. -/
theorem byteArguments_succ {args : Arguments} {n index : Nat} {i : Int} {rest : List UInt8}
    (hi : args.integer index "char" = .ok i) (hrange : 0 ≤ i ∧ i < 256)
    (hrest : byteArguments args n (index + 1) = .ok rest) :
    byteArguments args (n + 1) index = .ok (UInt8.ofNat i.toNat :: rest) := by
  simp only [byteArguments, hi, bind, Except.bind, if_pos hrange, hrest]
  rfl

/-- **Numbers are read back as the bytes they stand for.** -/
theorem byteArguments_drop (bs : List UInt8) (n index : Nat) (h : n + index = bs.length) :
    byteArguments (bs.map fun b => .number (Number.ofNat b.toNat)) n index =
      .ok (bs.drop index) := by
  induction n generalizing index with
  | zero =>
    rw [List.drop_of_length_le (by omega)]
    rfl
  | succ n ih =>
    have hindex : index < bs.length := by omega
    have harg : (bs.map fun b => Value.number (Number.ofNat b.toNat))[index]? =
        some (.number (Number.ofNat bs[index].toNat)) := by
      simp [hindex]
    have hinteger := Arguments.integer_of_isInteger "char" harg (Value.isInteger_byte bs[index])
    have hlt := bs[index].toNat_lt
    rw [byteArguments_succ hinteger (by omega) (ih (index + 1) (by omega)), Int.toNat_natCast,
      UInt8.ofNat_toNat, List.drop_eq_getElem_cons hindex]

/-- The text of the bytes of a text is this text. -/
theorem char_bytes (text : String) :
    char ((Text.bytes text).map fun b => .number (Number.ofNat b.toNat)) = .ok [.string text] := by
  have hbytes := byteArguments_drop (Text.bytes text) (Text.bytes text).length 0 rfl
  rw [char, List.length_map, hbytes, List.drop_zero]
  change Except.ok [Value.string (Text.ofBytes (Text.bytes text))] = _
  rw [Text.ofBytes_bytes]

/-- The bytes at the positions that two integers select. -/
theorem byte_eq {v w : Value} {start stop : Int} (text : String) (hv : v.IsInteger start)
    (hw : w.IsInteger stop) :
    byte [.string text, v, w] =
      .ok ((Text.bytesAt text start stop).map fun b => .number (Number.ofNat b.toNat)) := by
  have htext : Arguments.string [.string text, v, w] 0 "byte" = .ok text := rfl
  have hstart : Arguments.integerOr [.string text, v, w] 1 "byte" 1 = .ok start :=
    Arguments.integerOr_of_isInteger "byte" 1 rfl hv
  have hstop : Arguments.integerOr [.string text, v, w] 2 "byte" start = .ok stop :=
    Arguments.integerOr_of_isInteger "byte" start rfl hw
  simp only [byte, htext, hstart, hstop, bytesIn_eq, bind, Except.bind, pure, Except.pure]

/-- The indices one and minus one select all positions. -/
theorem bytesAt_all (text : String) : Text.bytesAt text 1 (-1) = Text.bytes text := by
  have hall : ((Text.bytes text).zipIdx 1).filter
      (fun e => Text.Selects text.utf8ByteSize 1 (-1) e.2) = (Text.bytes text).zipIdx 1 := by
    refine List.filter_eq_self.2 fun e he => ?_
    have hle := List.le_snd_of_mem_zipIdx he
    have hlt := List.snd_lt_add_of_mem_zipIdx he
    rw [Text.length_bytes] at hlt
    refine decide_eq_true ?_
    unfold Text.Selects Text.position
    omega
  rw [Text.bytesAt, hall, List.zipIdx_map_fst]

/-- **Indices select the bytes at their positions.**  The range of two indices is computed without
leaving the words of 64 bits; there is one, which is not empty and lies in the string, exactly
where some position is selected, and it holds the positions that are selected.  So the bytes that
are asked for are those at these positions, in their order, and the bytes of a whole string, as
numbers, give this string. -/
theorem byte_exact :
    (∀ length start stop, length < Word.half → Word.IsSigned start → Word.IsSigned stop →
      Text.byteRange? length start stop = some (Text.byteRange length start stop) ∧
      ((∃ first last, Text.byteRange length start stop = some (first, last) ∧ first < last ∧
          last ≤ length) ↔ ∃ p, Text.Selects length start stop p) ∧
      ∀ first last, Text.byteRange length start stop = some (first, last) →
        (first < last ∧ last ≤ length) ∧
          ∀ p, Text.Selects length start stop p ↔ first + 1 ≤ p ∧ p ≤ last) ∧
    (∀ text v w start stop, v.IsInteger start → w.IsInteger stop →
      byte [.string text, v, w] =
        .ok ((Text.bytesAt text start stop).map fun b => .number (Number.ofNat b.toNat))) ∧
    ∀ text, (byte [.string text, .number (Number.ofInt 1), .number (Number.ofInt (-1))] >>= char) =
      .ok [.string text] := by
  refine ⟨fun length start stop hlength hstart hstop => ⟨Text.byteRange?_eq hlength hstart hstop,
    ⟨?_, ?_⟩, fun first last h => Text.selects_iff_of_byteRange h⟩,
    fun text v w start stop hv hw => byte_eq text hv hw, fun text => ?_⟩
  · rintro ⟨first, last, hrange, hlt, -⟩
    exact ⟨last, ((Text.selects_iff_of_byteRange hrange).2 last).2 (by omega)⟩
  · rintro ⟨p, hp⟩
    cases hrange : Text.byteRange length start stop with
    | none => exact absurd hp (Text.not_selects_of_byteRange hrange p)
    | some range => exact ⟨range.1, range.2, rfl, (Text.selects_iff_of_byteRange hrange).1⟩
  · have hone : (Value.number (Number.ofInt 1)).IsInteger 1 := by
      unfold Value.IsInteger
      decide +kernel
    rw [byte_eq text hone Value.isInteger_minusOne, bytesAt_all]
    exact char_bytes text

/-- A range that ends behind the end of its string, and the second byte of a longer character. -/
theorem byte_exact_of_accent :
    Text.byteRange? 5 (-3) 9 = some (some (2, 5)) ∧
      byte [.string "é", .number (Number.ofInt 2), .number (Number.ofInt (-1))] =
        .ok [.number (Number.ofNat 169)] := by
  have hrange : Text.byteRange 5 (-3) 9 = some (2, 5) := by decide
  have htwo : (Value.number (Number.ofInt 2)).IsInteger 2 := by
    unfold Value.IsInteger
    decide +kernel
  have hbytes : Text.bytesAt "é" 2 (-1) = [169] := by decide +kernel
  refine ⟨?_, ?_⟩
  · rw [← hrange]
    exact (byte_exact.1 5 (-3) 9 (by decide) (by decide) (by decide)).1
  · have hbyte := byte_exact.2.1 "é" _ _ 2 (-1) htwo Value.isInteger_minusOne
    rw [hbytes] at hbyte
    exact hbyte

end Library

end ScriptEngine
