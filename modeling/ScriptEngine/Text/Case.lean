import ScriptEngine.Text.CaseTable

/-!
# Letter case

The full case mappings of Unicode text: a character may map to several, and a
capital sigma at the end of a word becomes a final one.

## Main definitions

* `Text.upper`, `Text.lower` — the mappings of a text.
-/

namespace ScriptEngine.Text

/-- Whether a code point lies in one of the ranges. -/
def inRanges (ranges : Array (Nat × Nat)) (n : Nat) : Bool :=
  ranges.any fun (first, last) => first ≤ n && n ≤ last

/-- Whether a run maps the code point `n`. -/
def CaseRun.covers (run : CaseRun) (n : Nat) : Bool :=
  run.first ≤ n && n ≤ run.last && (n - run.first) % run.stride == 0

/-- The image of a character beyond ASCII under a table of runs and a table of
sequences. -/
def mapChar (runs : Array CaseRun) (sequences : Array (Nat × List Nat)) (c : Char) : List Char :=
  let n := c.toNat
  match runs.find? (·.covers n) with
  | some run => [Char.ofNat (n + run.shift).toNat]
  | none =>
    match sequences.find? (·.1 == n) with
    | some (_, images) => images.map Char.ofNat
    | none => [c]

/-- The uppercase mapping of a character. -/
def upperChar (c : Char) : List Char :=
  if c.toNat < 128 then [c.toUpper] else mapChar upperRuns upperSequences c

/-- The lowercase mapping of a character, whatever stands around it. -/
def lowerChar (c : Char) : List Char :=
  if c.toNat < 128 then [c.toLower] else mapChar lowerRuns lowerSequences c

/-- The capital sigma. -/
def capitalSigma : Char := Char.ofNat 0x3A3

/-- Whether the first character that is not passed over in questions of case is
a cased one. -/
def startsCased (cs : List Char) : Bool :=
  match cs.dropWhile fun c => inRanges caseIgnorableRanges c.toNat with
  | c :: _ => inRanges casedRanges c.toNat
  | [] => false

/-- A sigma is final behind a cased character and not in front of one. -/
def lowerSigma (before after : List Char) : Char :=
  if startsCased before && !startsCased after then Char.ofNat 0x3C2 else Char.ofNat 0x3C3

/-- The lowercase mapping of a text that follows `before`, behind what has been
`mapped`; both are given last character first. -/
def lowerOnto (mapped before : List Char) : List Char → List Char
  | [] => mapped.reverse
  | c :: rest =>
    let image := if c = capitalSigma then [lowerSigma before rest] else lowerChar c
    lowerOnto (image.reverse ++ mapped) (c :: before) rest

/-- The uppercase mapping of a text. -/
def upper (text : String) : String := String.ofList (text.toList.flatMap upperChar)

/-- The lowercase mapping of a text. -/
def lower (text : String) : String := String.ofList (lowerOnto [] [] text.toList)

end ScriptEngine.Text
