import Mathlib.Data.List.TakeWhile
import ScriptEngine.Text.Utf8
import ScriptEngine.Token.Lexer

/-!
# Texts in their encoding

A source text is kept in UTF-8.  A character below 128 is one byte, of its own number; any other
one is a byte that begins it and bytes that go on with it, all of them from 128 on.  Bytes stand
here as the characters of their numbers, so that what tests a character tests a byte as well, and
what only characters below 128 pass finds the same in a text and in its bytes.

## Main definitions

* `octets` — the bytes of a text.
* `isContinuation`, `onBoundary` — where characters begin.
* `Position.afterOctets` — the place behind bytes; those that go on with a character take no column.
* `PassesAscii` — tests that only characters below 128 pass.

## Main results

* `Text.ofBytes_bytes` — **a text is read back from its bytes.**
* `octets_cons_of_lt`, `octets_cons_of_le` — the bytes of a character.
* `onBoundary_octets` — a text may be cut before any of its characters.
* `Position.afterOctets_octets` — places are counted alike.
* `takeWhile_octets`, `dropWhile_octets` — tests that find the same in both.
-/

namespace ScriptEngine

/-! ### The bytes of a character -/

section Encode

variable {c : Char}

theorem encode_one (h : c.toNat < 0x80) :
    String.utf8EncodeChar c = [UInt8.ofNat c.toNat] := by
  unfold String.utf8EncodeChar
  exact if_pos (Nat.le_of_lt_succ h)

theorem encode_two (hlow : 0x80 ≤ c.toNat) (hhigh : c.toNat < 0x800) :
    String.utf8EncodeChar c =
      [UInt8.ofNat (c.toNat / 64 % 32 + 192), UInt8.ofNat (c.toNat % 64 + 128)] := by
  unfold String.utf8EncodeChar
  exact (if_neg (Nat.not_le.2 hlow)).trans (if_pos (Nat.le_of_lt_succ hhigh))

theorem encode_three (hlow : 0x800 ≤ c.toNat) (hhigh : c.toNat < 0x10000) :
    String.utf8EncodeChar c =
      [UInt8.ofNat (c.toNat / 4096 % 16 + 224), UInt8.ofNat (c.toNat / 64 % 64 + 128),
        UInt8.ofNat (c.toNat % 64 + 128)] := by
  unfold String.utf8EncodeChar
  exact (if_neg (Nat.not_le.2 (by omega : 127 < c.toNat))).trans
    ((if_neg (Nat.not_le.2 hlow)).trans (if_pos (Nat.le_of_lt_succ hhigh)))

theorem encode_four (hlow : 0x10000 ≤ c.toNat) :
    String.utf8EncodeChar c =
      [UInt8.ofNat (c.toNat / 262144 % 8 + 240), UInt8.ofNat (c.toNat / 4096 % 64 + 128),
        UInt8.ofNat (c.toNat / 64 % 64 + 128), UInt8.ofNat (c.toNat % 64 + 128)] := by
  unfold String.utf8EncodeChar
  exact (if_neg (Nat.not_le.2 (by omega : 127 < c.toNat))).trans
    ((if_neg (Nat.not_le.2 (by omega : 2047 < c.toNat))).trans (if_neg (Nat.not_le.2 hlow)))

end Encode

/-! ### Reading back -/

namespace Text

variable {c : Char} {read : List Char} {bs : List UInt8} {b : UInt8} {p : Unfinished}

theorem decodeOnto_opening (h : opening b.toNat = .unfinished p) :
    decodeOnto read none (b :: bs) = decodeOnto read (some p) bs := by
  rw [decodeOnto, h]

/-- A byte that goes on with a sequence. -/
theorem decodeOnto_more {n : Nat} (hmissing : p.missing = n + 2) (hlow : p.low ≤ b.toNat)
    (hhigh : b.toNat ≤ p.high) :
    decodeOnto read (some p) (b :: bs) =
      decodeOnto read (some ⟨p.value * 64 + (b.toNat - 0x80), n + 1, 0x80, 0xBF⟩) bs := by
  rw [decodeOnto, if_pos ⟨hlow, hhigh⟩, if_neg (by omega), hmissing]
  rfl

/-- The byte that completes a sequence. -/
theorem decodeOnto_last (hmissing : p.missing = 1) (hlow : p.low ≤ b.toNat)
    (hhigh : b.toNat ≤ p.high) (hc : p.value * 64 + (b.toNat - 0x80) = c.toNat) :
    decodeOnto read (some p) (b :: bs) = decodeOnto (c :: read) none bs := by
  rw [decodeOnto, if_pos ⟨hlow, hhigh⟩, if_pos hmissing, hc, Char.ofNat_toNat]

theorem opening_of_two {n : Nat} (hlow : 0xC2 ≤ n) (hhigh : n < 0xE0) :
    opening n = .unfinished ⟨n - 0xC0, 1, 0x80, 0xBF⟩ := by
  rw [opening, if_neg (by omega), if_neg (by omega), if_pos hhigh]

theorem opening_of_three {n : Nat} (hlow : 0xE0 ≤ n) (hhigh : n < 0xF0) :
    opening n = .unfinished
      ⟨n - 0xE0, 2, if n = 0xE0 then 0xA0 else 0x80, if n = 0xED then 0x9F else 0xBF⟩ := by
  rw [opening, if_neg (by omega), if_neg (by omega), if_neg (by omega), if_pos hhigh]

theorem opening_of_four {n : Nat} (hlow : 0xF0 ≤ n) (hhigh : n < 0xF5) :
    opening n = .unfinished
      ⟨n - 0xF0, 3, if n = 0xF0 then 0x90 else 0x80, if n = 0xF4 then 0x8F else 0xBF⟩ := by
  rw [opening, if_neg (by omega), if_neg (by omega), if_neg (by omega), if_neg (by omega),
    if_pos hhigh]

/-- The bytes of a character are read back as this character. -/
theorem decodeOnto_encode (c : Char) (read : List Char) (bs : List UInt8) :
    decodeOnto read none (String.utf8EncodeChar c ++ bs) = decodeOnto (c :: read) none bs := by
  -- the first and the last surrogate bound what the second of three bytes may be
  have hvalid : c.toNat < 0xD800 ∨ 0xDFFF < c.toNat ∧ c.toNat < 0x110000 := c.valid
  have hbyte {n : Nat} (h : n < 256) : (UInt8.ofNat n).toNat = n := by
    rw [UInt8.toNat_ofNat']
    exact Nat.mod_eq_of_lt h
  rcases Nat.lt_or_ge c.toNat 0x80 with hone | hone
  · rw [encode_one hone, List.singleton_append, decodeOnto, hbyte (by omega), opening,
      if_pos hone, Char.ofNat_toNat]
  rcases Nat.lt_or_ge c.toNat 0x800 with htwo | htwo
  · rw [encode_two hone htwo]
    have hfirst := hbyte (n := c.toNat / 64 % 32 + 192) (by omega)
    have hsecond := hbyte (n := c.toNat % 64 + 128) (by omega)
    refine (decodeOnto_opening (opening_of_two (by omega) (by omega))).trans ?_
    exact decodeOnto_last rfl (by dsimp only; omega) (by dsimp only; omega) (by dsimp only; omega)
  rcases Nat.lt_or_ge c.toNat 0x10000 with hthree | hthree
  · rw [encode_three htwo hthree]
    have hfirst := hbyte (n := c.toNat / 4096 % 16 + 224) (by omega)
    have hsecond := hbyte (n := c.toNat / 64 % 64 + 128) (by omega)
    have hthird := hbyte (n := c.toNat % 64 + 128) (by omega)
    refine (decodeOnto_opening (opening_of_three (by omega) (by omega))).trans ?_
    refine (decodeOnto_more (n := 0) rfl ?_ ?_).trans ?_
    · dsimp only
      split <;> omega
    · dsimp only
      split <;> omega
    · exact decodeOnto_last rfl (by dsimp only; omega) (by dsimp only; omega)
        (by dsimp only; omega)
  · rw [encode_four hthree]
    have hfirst := hbyte (n := c.toNat / 262144 % 8 + 240) (by omega)
    have hsecond := hbyte (n := c.toNat / 4096 % 64 + 128) (by omega)
    have hthird := hbyte (n := c.toNat / 64 % 64 + 128) (by omega)
    have hfourth := hbyte (n := c.toNat % 64 + 128) (by omega)
    refine (decodeOnto_opening (opening_of_four (by omega) (by omega))).trans ?_
    refine (decodeOnto_more (n := 1) rfl ?_ ?_).trans ?_
    · dsimp only
      split <;> omega
    · dsimp only
      split <;> omega
    refine (decodeOnto_more (n := 0) rfl (by dsimp only; omega) (by dsimp only; omega)).trans ?_
    exact decodeOnto_last rfl (by dsimp only; omega) (by dsimp only; omega) (by dsimp only; omega)

theorem decodeOnto_bytes (cs read : List Char) :
    decodeOnto read none (cs.flatMap String.utf8EncodeChar) = read.reverse ++ cs := by
  induction cs generalizing read with
  | nil => exact (List.append_nil _).symm
  | cons c cs ih => rw [List.flatMap_cons, decodeOnto_encode, ih, List.reverse_cons,
      List.append_assoc, List.singleton_append]

/-- **A text is read back from its bytes.** -/
theorem ofBytes_bytes (text : String) : ofBytes (bytes text) = text := by
  rw [ofBytes, bytes, decodeOnto_bytes]
  exact String.ofList_toList

end Text
/-! ### Octets -/

/-- The bytes of a text, each as the character of its number. -/
def octets (cs : List Char) : List Char := (Text.bytes (String.ofList cs)).map Char.ofUInt8

/-- The bytes that go on with a character, the first of which stands before them. -/
def isContinuation (b : Char) : Bool := 0x80 ≤ b.toNat && b.toNat < 0xC0

/-- Whether a text may be cut before these bytes. -/
def onBoundary (bs : List Char) : Bool := !bs.head?.any isContinuation

/-- The place after a byte that stands at `p`: the bytes of a character share its column. -/
def Position.afterOctet (p : Position) (b : Char) : Position :=
  if isContinuation b then p else p.after b

/-- The place behind bytes the first of which stands at `p`. -/
def Position.afterOctets (p : Position) (bs : List Char) : Position := bs.foldl afterOctet p

variable {c : Char} {cs bs : List Char}

@[simp] theorem octets_nil : octets [] = [] := rfl

theorem octets_cons (c : Char) (cs : List Char) :
    octets (c :: cs) = (String.utf8EncodeChar c).map Char.ofUInt8 ++ octets cs := by
  simp [octets, Text.bytes]

theorem octets_append (cs cs' : List Char) : octets (cs ++ cs') = octets cs ++ octets cs' := by
  simp [octets, Text.bytes]

theorem toNat_ofUInt8_ofNat {n : Nat} (h : n < 256) : (Char.ofUInt8 (UInt8.ofNat n)).toNat = n := by
  change (UInt8.ofNat n).toUInt32.toNat = n
  rw [UInt8.toNat_toUInt32, UInt8.toNat_ofNat']
  exact Nat.mod_eq_of_lt h

/-- A character below 128 is its own byte. -/
theorem octets_cons_of_lt (h : c.toNat < 0x80) : octets (c :: cs) = c :: octets cs := by
  have hbyte : Char.ofUInt8 (UInt8.ofNat c.toNat) = c :=
    Char.toNat_inj.1 (toNat_ofUInt8_ofNat (by omega))
  rw [octets_cons, encode_one h, List.map_singleton, hbyte, List.singleton_append]

theorem isContinuation_ofNat {n : Nat} (h : n < 64) :
    isContinuation (Char.ofUInt8 (UInt8.ofNat (n + 128))) = true := by
  rw [isContinuation, toNat_ofUInt8_ofNat (by omega)]
  simp only [Bool.and_eq_true, decide_eq_true_eq]
  omega

/-- Any other character is a byte that begins it and bytes that go on with it. -/
theorem octets_cons_of_le (h : 0x80 ≤ c.toNat) (cs : List Char) :
    ∃ lead tail, octets (c :: cs) = lead :: (tail ++ octets cs) ∧ 0xC0 ≤ lead.toNat ∧
      tail ≠ [] ∧ ∀ b ∈ tail, isContinuation b := by
  have hvalid : c.toNat < 0xD800 ∨ 0xDFFF < c.toNat ∧ c.toNat < 0x110000 := c.valid
  have hnext (n : Nat) : isContinuation (Char.ofUInt8 (UInt8.ofNat (n % 64 + 128))) = true :=
    isContinuation_ofNat (Nat.mod_lt n (by decide))
  rw [octets_cons]
  rcases Nat.lt_or_ge c.toNat 0x800 with htwo | htwo
  · rw [encode_two h htwo]
    refine ⟨_, [_], rfl, ?_, List.cons_ne_nil _ _, ?_⟩
    · rw [toNat_ofUInt8_ofNat (by omega)]
      omega
    · simp only [List.forall_mem_singleton, hnext]
  rcases Nat.lt_or_ge c.toNat 0x10000 with hthree | hthree
  · rw [encode_three htwo hthree]
    refine ⟨_, [_, _], rfl, ?_, List.cons_ne_nil _ _, ?_⟩
    · rw [toNat_ofUInt8_ofNat (by omega)]
      omega
    · simp [hnext, -UInt8.ofNat_add]
  · rw [encode_four hthree]
    refine ⟨_, [_, _, _], rfl, ?_, List.cons_ne_nil _ _, ?_⟩
    · rw [toNat_ofUInt8_ofNat (by omega)]
      omega
    · simp [hnext, -UInt8.ofNat_add]

theorem toUInt8_ofUInt8 (b : UInt8) : (Char.ofUInt8 b).toUInt8 = b := by
  change b.toUInt32.toUInt8 = b
  exact UInt8.toUInt8_toUInt32 b

/-- The bytes of a text are read back as this text. -/
theorem ofBytes_octets (cs : List Char) :
    Text.ofBytes ((octets cs).map Char.toUInt8) = String.ofList cs := by
  have hbyte : Char.toUInt8 ∘ Char.ofUInt8 = id := funext toUInt8_ofUInt8
  rw [octets, List.map_map, hbyte, List.map_id, Text.ofBytes_bytes]

/-- A text may be cut before any of its characters. -/
theorem onBoundary_octets (cs : List Char) : onBoundary (octets cs) = true := by
  cases cs with
  | nil => rfl
  | cons c cs =>
    rcases Nat.lt_or_ge c.toNat 0x80 with hlt | hle
    · rw [octets_cons_of_lt hlt]
      simp [onBoundary, isContinuation, hlt]
    · obtain ⟨lead, tail, hoctets, hlead, -⟩ := octets_cons_of_le hle cs
      rw [hoctets]
      simp [onBoundary, isContinuation, hlead]

/-! ### Places -/

namespace Position

variable {p : Position}

theorem afterOctets_append (p : Position) (bs bs' : List Char) :
    p.afterOctets (bs ++ bs') = (p.afterOctets bs).afterOctets bs' :=
  List.foldl_append

theorem afterOctet_of_lt (h : c.toNat < 0x80) : p.afterOctet c = p.after c := by
  refine if_neg ?_
  simp only [isContinuation, Bool.and_eq_true, decide_eq_true_eq]
  omega

/-- The byte that begins a character takes the column of this character. -/
theorem afterOctet_of_lead {lead : Char} (hlead : 0xC0 ≤ lead.toNat) (h : 0x80 ≤ c.toNat) :
    p.afterOctet lead = p.after c := by
  have hnewline {d : Char} (hd : 0x80 ≤ d.toNat) : d ≠ '\n' := by
    rintro rfl
    exact absurd hd (by decide)
  have hnot : ¬ isContinuation lead := by
    simp [isContinuation, hlead]
  rw [afterOctet, if_neg hnot, after_of_ne p (hnewline (by omega)), after_of_ne p (hnewline h)]

theorem afterOctets_of_continuation (h : ∀ b ∈ bs, isContinuation b) : p.afterOctets bs = p := by
  induction bs with
  | nil => rfl
  | cons b bs ih =>
    obtain ⟨hb, hbs⟩ := List.forall_mem_cons.1 h
    rw [afterOctets, List.foldl_cons, afterOctet, if_pos hb]
    exact ih hbs

/-- The place is the same whether characters are counted or the bytes that begin them. -/
theorem afterOctets_octets (p : Position) (cs : List Char) :
    p.afterOctets (octets cs) = p.afterAll cs := by
  induction cs generalizing p with
  | nil => rfl
  | cons c cs ih =>
    rcases Nat.lt_or_ge c.toNat 0x80 with hlt | hle
    · rw [octets_cons_of_lt hlt, afterOctets, List.foldl_cons, afterOctet_of_lt hlt]
      exact ih (p.after c)
    · obtain ⟨lead, tail, hoctets, hlead, -, htail⟩ := octets_cons_of_le hle cs
      have hplace : (p.afterOctet lead).afterOctets tail = p.after c := by
        rw [afterOctets_of_continuation htail, afterOctet_of_lead hlead hle]
      rw [hoctets, afterOctets, List.foldl_cons, ← afterOctets, afterOctets_append, hplace]
      exact ih (p.after c)

end Position

/-! ### What only characters below 128 pass -/

/-- Whether only characters below 128 pass a test. -/
def PassesAscii (f : Char → Bool) : Prop := ∀ c, f c → c.toNat < 0x80

section Tests

variable {f : Char → Bool}

theorem PassesAscii.eq_false (hf : PassesAscii f) (h : 0x80 ≤ c.toNat) : f c = false :=
  Bool.eq_false_iff.2 fun hpass => absurd (hf c hpass) (Nat.not_lt.2 h)

/-- What is taken off the bytes by a test is what is taken off the text. -/
theorem takeWhile_octets (hf : PassesAscii f) (cs : List Char) :
    (octets cs).takeWhile f = cs.takeWhile f := by
  induction cs with
  | nil => rfl
  | cons c cs ih =>
    rcases Nat.lt_or_ge c.toNat 0x80 with hlt | hle
    · rw [octets_cons_of_lt hlt, List.takeWhile_cons, List.takeWhile_cons, ih]
    · obtain ⟨lead, tail, hoctets, hlead, -⟩ := octets_cons_of_le hle cs
      have hfail : f lead = false := hf.eq_false (by omega)
      rw [hoctets, List.takeWhile_cons, List.takeWhile_cons, hf.eq_false hle, hfail]
      rfl

theorem dropWhile_octets (hf : PassesAscii f) (cs : List Char) :
    (octets cs).dropWhile f = octets (cs.dropWhile f) := by
  induction cs with
  | nil => rfl
  | cons c cs ih =>
    rcases Nat.lt_or_ge c.toNat 0x80 with hlt | hle
    · rw [octets_cons_of_lt hlt, List.dropWhile_cons, List.dropWhile_cons, ih]
      split
      · rfl
      · rw [octets_cons_of_lt hlt]
    · obtain ⟨lead, tail, hoctets, hlead, -⟩ := octets_cons_of_le hle cs
      have hfail : f lead = false := hf.eq_false (by omega)
      rw [List.dropWhile_cons_of_neg (Bool.eq_false_iff.1 (hf.eq_false hle)), hoctets,
        List.dropWhile_cons_of_neg (Bool.eq_false_iff.1 hfail)]

/-- Characters below 128 are their own bytes. -/
theorem octets_of_forall_lt (h : ∀ c ∈ cs, c.toNat < 0x80) : octets cs = cs := by
  induction cs with
  | nil => rfl
  | cons c cs ih =>
    obtain ⟨hc, hcs⟩ := List.forall_mem_cons.1 h
    rw [octets_cons_of_lt hc, ih hcs]

theorem octets_takeWhile (hf : PassesAscii f) (cs : List Char) :
    octets (cs.takeWhile f) = cs.takeWhile f :=
  octets_of_forall_lt fun c hc => hf c (List.mem_takeWhile_imp hc)

end Tests

/-- The bytes of a text begin with a byte below 128 only if the text begins with it. -/
theorem exists_of_octets_eq_cons (hc : c.toNat < 0x80) (h : octets cs = c :: bs) :
    ∃ cs', cs = c :: cs' ∧ bs = octets cs' := by
  cases cs with
  | nil => cases h
  | cons c' cs' =>
    rcases Nat.lt_or_ge c'.toNat 0x80 with hlt | hle
    · rw [octets_cons_of_lt hlt] at h
      obtain ⟨rfl, rfl⟩ := List.cons.inj h
      exact ⟨cs', rfl, rfl⟩
    · obtain ⟨lead, tail, hoctets, hlead, -⟩ := octets_cons_of_le hle cs'
      obtain ⟨rfl, -⟩ := List.cons.inj (hoctets.symm.trans h)
      omega

end ScriptEngine
