import ScriptEngine.Host
import ScriptEngine.Library.Base
import ScriptEngine.Proofs.Reentry.Dialogue

/-!
# Native functions make up no functions

A native function touches the engine only by calling back into it.  What it
returns and stores are values that it was given, that it found in the store, that
its calls returned, or that are no script functions; and the calls it makes are
calls with such values.  Only a few functions call back at all; the others are
computations on the store.

## Main results

* `honest_run` — the native functions are honest.
* `Library.known_install` — the library holds no script functions.
-/

namespace ScriptEngine

variable {E : Functions}

/-! ### Arguments -/

section Arguments

variable {args : Arguments} {index : Nat} {function : String}

theorem AllKnown.value (h : AllKnown E args) (index : Nat) : (args.value index).Known E :=
  h.getD index

theorem harmless_number : Harmless (fun _ => True) (args.number index function) := by
  unfold Arguments.number
  split
  · trivial
  · rfl

theorem harmless_integer : Harmless (fun _ => True) (args.integer index function) :=
  harmless_number.bind fun x _ => by
    split
    · trivial
    · rfl

theorem harmless_integerOr {otherwise : Int} :
    Harmless (fun _ => True) (args.integerOr index function otherwise) :=
  .ite trivial harmless_integer

theorem harmless_string : Harmless (fun _ => True) (args.string index function) := by
  unfold Arguments.string
  split
  · trivial
  · trivial
  · rfl

theorem harmless_stringOrEmpty : Harmless (fun _ => True) (args.stringOrEmpty index function) :=
  .ite trivial harmless_string

theorem harmless_table : Harmless (fun _ => True) (args.table index function) := by
  unfold Arguments.table
  split
  · trivial
  · rfl

theorem harmless_any : Harmless (fun _ => True) (args.any index function) := by
  unfold Arguments.any
  split
  · trivial
  · rfl

end Arguments

/-! ### Functions that need no store -/

section Pure

variable {args : Arguments}

theorem known_string (text : String) : AllKnown E [.string text] := .singleton trivial

theorem known_number (x : Float) : AllKnown E [.number x] := .singleton trivial

theorem known_nil : AllKnown E [.nil] := .singleton trivial

namespace Format

theorem harmless_readDigits (cs : List Char) : Harmless (fun _ => True) (readDigits cs) :=
  .ite rfl trivial

theorem harmless_readSpec (cs : List Char) : Harmless (fun _ => True) (readSpec cs) := by
  unfold readSpec
  refine (harmless_readDigits _).bind fun width _ => ?_
  dsimp only
  split
  · refine (harmless_readDigits _).bind fun precision _ => ?_
    dsimp only [bind, Except.bind, pure, Except.pure]
    split
    · rfl
    · trivial
  · dsimp only [bind, Except.bind, pure, Except.pure]
    split
    · rfl
    · trivial

theorem harmless_convert (spec : Spec) (letter : Char) (index : Nat) :
    Harmless (fun _ => True) (convert spec letter args index) := by
  unfold convert
  split
  case h_9 => exact harmless_any.bind fun _ _ => trivial
  case h_10 => rfl
  all_goals first
    | exact harmless_integer.bind fun _ _ => trivial
    | exact harmless_number.bind fun _ _ => trivial

theorem harmless_formatOnto (written : List Char) (fuel index : Nat) (cs : List Char) :
    Harmless (fun _ => True) (formatOnto args written fuel index cs) := by
  fun_induction formatOnto args written fuel index cs with
  | case1 => trivial
  | case2 => trivial
  | case3 written fuel index rest ih => exact ih
  | case4 written fuel index rest _ ih =>
    exact (harmless_readSpec _).bind fun _ _ => (harmless_convert _ _ _).bind fun _ _ => ih _ _
  | case5 written fuel index c rest _ ih => exact ih

end Format

namespace Library

theorem harmless_byteArguments (n index : Nat) :
    Harmless (fun _ => True) (byteArguments args n index) := by
  induction n generalizing index with
  | zero => trivial
  | succ n ih =>
    exact harmless_integer.bind fun _ _ => .ite ((ih _).bind fun _ _ => trivial) rfl

theorem known_bytes (bytes : List UInt8) :
    AllKnown E (bytes.map fun b => .number (Number.ofNat b.toNat)) := by
  intro v hv
  obtain ⟨b, -, rfl⟩ := List.mem_map.1 hv
  trivial

theorem harmless_stringFunction (f : StringFunction) :
    Harmless (AllKnown E) (string f args) := by
  cases f with
  | len => exact harmless_string.bind fun _ _ => known_number _
  | upper => exact harmless_string.bind fun _ _ => known_string _
  | lower => exact harmless_string.bind fun _ _ => known_string _
  | rep =>
    exact harmless_string.bind fun _ _ => harmless_integer.bind fun _ _ =>
      harmless_stringOrEmpty.bind fun _ _ => .ite (known_string _)
        (.ite (known_string _) (.ite (known_string _) rfl))
  | sub =>
    exact harmless_string.bind fun _ _ => harmless_integerOr.bind fun _ _ =>
      harmless_integerOr.bind fun _ _ => known_string _
  | reverse => exact harmless_string.bind fun _ _ => known_string _
  | byte =>
    exact harmless_string.bind fun _ _ => harmless_integerOr.bind fun _ _ =>
      harmless_integerOr.bind fun _ _ => known_bytes _
  | char => exact (harmless_byteArguments _ _).bind fun _ _ => known_string _
  | format =>
    exact harmless_string.bind fun _ _ => (Format.harmless_formatOnto _ _ _ _).bind fun _ _ =>
      known_string _

theorem harmless_onNumber (name : String) (f : Float → Float) :
    Harmless (AllKnown E) (onNumber name f args) :=
  harmless_number.bind fun _ _ => known_number _

theorem harmless_combine (name : String) (f : Float → Float → Float) (n index : Nat) (x : Float) :
    Harmless (fun _ => True) (combine name f args n index x) := by
  induction n generalizing index x with
  | zero => trivial
  | succ n ih => exact harmless_number.bind fun _ _ => ih _ _

theorem harmless_combineAll (name : String) (f : Float → Float → Float) :
    Harmless (AllKnown E) (combineAll name f args) :=
  harmless_number.bind fun _ _ => (harmless_combine _ _ _ _ _).bind fun _ _ => known_number _

theorem harmless_math (f : MathFunction) : Harmless (AllKnown E) (math f args) := by
  cases f with
  | log =>
    exact harmless_number.bind fun _ _ => .ite (known_number _) (harmless_number.bind fun _ _ =>
      .ite (known_number _) (.ite (known_number _) (known_number _)))
  | fmod => exact harmless_number.bind fun _ _ => harmless_number.bind fun _ _ => known_number _
  | max => exact harmless_combineAll _ _
  | min => exact harmless_combineAll _ _
  | tointeger =>
    rw [math, tointeger]
    split
    · refine AllKnown.singleton ?_
      split <;> trivial
    · exact known_nil
  | type =>
    refine harmless_any.bind fun v _ => ?_
    split
    · exact known_string _
    · exact known_nil
  | _ => exact harmless_onNumber _ _

theorem harmless_select (h : AllKnown E args) : Harmless (AllKnown E) (select args) :=
  .ite (known_number _) (harmless_integer.bind fun _ _ =>
    .ite rfl (h.of_subset (List.Subset.trans (List.drop_subset _ _) (List.drop_subset _ _))))

theorem harmless_tonumber : Harmless (AllKnown E) (tonumber args) := by
  refine harmless_any.bind fun v _ => .ite (.singleton ?_) (harmless_integer.bind fun base _ =>
    .ite rfl (harmless_string.bind fun text _ => ?_))
  · cases v.toNumber? <;> trivial
  · split
    · exact known_number _
    · exact known_nil

theorem harmless_assert (h : AllKnown E args) : Harmless (AllKnown E) (assert args) :=
  .ite h (.ite rfl rfl)

end Library

end Pure

/-! ### Functions on tables -/

namespace Table

variable {t : Table}

theorem Known.atInteger (h : t.Known E) (i : Int) : (t.atInteger i).Known E := h.get _

theorem Known.moveUp (h : t.Known E) (position count : Nat) :
    (t.moveUp position count).Known E := by
  induction count generalizing t with
  | zero => exact h
  | succ count ih => exact ih (h.set _ (h.get _))

theorem Known.insertAt (h : t.Known E) (position : Nat) {v : Value} (hv : v.Known E) :
    (t.insertAt position v).Known E :=
  (h.moveUp _ _).set _ hv

theorem Known.moveDown (h : t.Known E) (position count : Nat) :
    (t.moveDown position count).Known E := by
  induction count generalizing t position with
  | zero => exact h
  | succ count ih => exact ih (h.set _ (h.get _)) (position + 1)

theorem Known.removeAt (h : t.Known E) (position : Nat) : (t.removeAt position).Known E := by
  simp only [Table.removeAt]
  split
  · exact (h.moveDown _ _).set _ trivial
  · exact h.moveDown _ _

theorem Known.valuesFrom (h : t.Known E) (start : Int) (count : Nat) :
    AllKnown E (t.valuesFrom start count) := by
  intro v hv
  obtain ⟨i, -, rfl⟩ := List.mem_map.1 hv
  exact h.atInteger _

theorem Known.setSequence (h : t.Known E) (position : Nat) {vs : List Value}
    (hvs : AllKnown E vs) : (t.setSequence position vs).Known E := by
  induction vs generalizing t position with
  | nil => exact h
  | cons v rest ih =>
    obtain ⟨hv, hrest⟩ := List.forall_mem_cons.1 hvs
    exact ih (h.set _ hv) (position + 1) hrest

theorem harmless_textsFrom (read : List String) (start : Int) (count : Nat) :
    Harmless (fun _ => True) (t.textsFrom read start count) := by
  induction count generalizing read start with
  | zero => trivial
  | succ count ih =>
    rw [textsFrom]
    split
    · exact ih _ _
    · exact ih _ _
    · rfl

theorem harmless_next (h : t.Known E) (k : Option Key) :
    Harmless (fun e => ∀ entry ∈ e, entry.2.Known E) (t.next k) := by
  have hentry (i : Nat) : ∀ entry ∈ t.entries[i]?, entry.2.Known E :=
    fun entry he => h entry (Array.mem_of_getElem? he)
  unfold Table.next
  split
  · exact hentry 0
  · split
    · rfl
    · exact hentry _

theorem known_ofValues {vs : List Value} (h : AllKnown E vs) : (ofValues vs).Known E :=
  known_ofEntries fun e he => by
    obtain ⟨⟨v, i⟩, hv, rfl⟩ := List.mem_map.1 he
    exact h v (List.fst_mem_of_mem_zipIdx hv)

end Table

namespace Library

variable {args : Arguments}

theorem tame_border (ref : TableRef) : Tame E (fun _ => True) (border ref) :=
  .of_read fun _ _ => trivial

theorem tame_contents (ref : TableRef) : Tame E (Table.Known E) (contents ref) :=
  .of_read fun _ hs => hs.table ref

theorem tame_valueAt (ref : TableRef) (i : Int) :
    Tame E (Value.Known E) (valueAt ref i) :=
  .of_read fun _ hs => (hs.table ref).atInteger i

theorem tame_changeTable (ref : TableRef) {change : Table → Table}
    (h : ∀ t, t.Known E → (change t).Known E) :
    Tame E (fun _ => True) (changeTable ref change) :=
  .of_change trivial (fun _ hs => hs.modifyTable ref h) fun _ => rfl

theorem tame_insert (h : AllKnown E args) : Tame E (AllKnown E) (insert args) := by
  unfold insert
  refine (Tame.lift harmless_table).bind fun ref _ => (tame_border ref).bind fun length _ => ?_
  have hdone : Tame E (AllKnown E) (pure []) := .pure .nil
  split
  · exact (tame_changeTable ref fun t ht => ht.set _ (h.value 1)).bind fun _ _ => hdone
  · refine (Tame.lift harmless_integer).bind fun position _ => ?_
    exact .ite (.throw_bind rfl) ((tame_changeTable ref fun t ht =>
      ht.insertAt _ (h.value 2)).bind fun _ _ => hdone)
  · exact .throw_bind rfl

theorem tame_remove : Tame E (AllKnown E) (remove args) := by
  refine (Tame.lift harmless_table).bind fun ref _ => (tame_border ref).bind fun length _ =>
    (Tame.lift harmless_integerOr).bind fun position _ => .ite (.pure known_nil) ?_
  exact .ite (.throw_bind rfl) ((tame_valueAt ref position).bind fun removed hremoved =>
    (tame_changeTable ref fun t ht => ht.removeAt _).bind fun _ _ => .pure (.singleton hremoved))

theorem tame_join : Tame E (AllKnown E) (join args) :=
  (Tame.lift harmless_table).bind fun ref _ => (Tame.lift harmless_stringOrEmpty).bind fun _ _ =>
    (Tame.lift harmless_integerOr).bind fun _ _ => (tame_border ref).bind fun _ _ =>
      (Tame.lift harmless_integerOr).bind fun _ _ => (tame_contents ref).bind fun _ _ =>
        (Tame.lift (Table.harmless_textsFrom _ _ _)).bind fun _ _ => .pure (known_string _)

theorem tame_pack (h : AllKnown E args) : Tame E (AllKnown E) (pack args) :=
  fun _ hs => ⟨.singleton trivial, hs.newTable ((Table.known_ofValues h).set _ trivial), rfl⟩

theorem tame_unpack : Tame E (AllKnown E) (unpack args) := by
  exact (Tame.lift harmless_table).bind fun ref _ => (Tame.lift harmless_integerOr).bind
    fun start _ => (tame_border ref).bind fun _ _ => (Tame.lift harmless_integerOr).bind
      fun stop _ => .ite (.throw_bind rfl) ((tame_contents ref).bind fun t ht =>
        .pure (ht.valuesFrom _ _))

theorem tame_newNative (f : BaseFunction) :
    Tame E (Value.Known E) (newNative f) :=
  fun _ hs => ⟨trivial, hs.newNative f.name (.base f), rfl⟩

theorem tame_next : Tame E (AllKnown E) (next args) := by
  refine (Tame.lift harmless_table).bind fun ref _ => .ite
    ((Tame.pure trivial).bind fun key (_ : True) => ?_)
    (((Tame.lift (harmless_key _)).map fun _ _ => trivial).bind fun key (_ : True) => ?_)
  all_goals
    refine (tame_contents ref).bind fun t ht => (Tame.lift (t.harmless_next ht key)).bind
      fun e he => ?_
    split
    · next key v =>
      have hkey : key.toValue.Known E := by cases key <;> trivial
      exact .pure (.cons hkey (.singleton (he _ rfl)))
    · exact .pure known_nil

theorem tame_base (hargs : AllKnown E args) (function : BaseFunction) :
    Tame E (AllKnown E) (base function args) := by
  cases function with
  | print => exact .of_change .nil (fun _ hs => hs.emit _) fun _ => rfl
  | type => exact .lift (harmless_any.bind fun _ _ => known_string _)
  | tostring => exact .lift (harmless_any.bind fun _ _ => known_string _)
  | tonumber => exact .lift harmless_tonumber
  | pairs =>
    exact (Tame.lift harmless_table).bind fun _ _ => (tame_newNative _).bind fun v hv =>
      .pure (.cons hv (.cons trivial known_nil))
  | next => exact tame_next
  | ipairs =>
    exact (Tame.lift harmless_table).bind fun _ _ => (tame_newNative _).bind fun v hv =>
      .pure (.cons hv (.cons trivial (known_number 0)))
  | ipairsStep =>
    exact (Tame.lift harmless_table).bind fun _ _ => (Tame.lift harmless_number).bind
      fun _ _ => (tame_contents _).bind fun t ht =>
        .ite (.pure known_nil) (.pure (.cons trivial (.singleton (ht.get _))))
  | select => exact .lift (harmless_select hargs)
  | assert => exact .lift (harmless_assert hargs)
  | error => exact .throw rfl


end Library

/-! ### Functions that call back -/

/-- What a native function makes of an answer that it passes on. -/
def passedOn : EStateM.Result Interrupt Store (List Value) →
    EStateM.Result Failure Store (List Value)
  | .ok results s => .ok results s
  | .error i s => .error (.interrupt i) s

/-- A call back into the engine from a native function. -/
theorem converses_callBack {callee : Value} {args : List Value} {pre : Functions → Prop}
    (hcallee : ∀ E, pre E → callee.Known E) (hargs : ∀ E, pre E → AllKnown E args) :
    Converses pre AllKnown fun call => Host.callBack call callee args := by
  have hpassed : (fun call => Host.callBack call callee args) =
      fun call s => passedOn (call callee args s) := by
    funext call s
    rw [Host.callBack, EStateM.adaptExcept]
    cases call callee args s <;> rfl
  rw [hpassed]
  refine converses_call passedOn hcallee hargs fun E answer hanswer => ?_
  cases answer with
  | ok results s => exact ⟨hanswer.1, hanswer.2, rfl⟩
  | error i s => exact ⟨rfl, hanswer, rfl⟩

theorem lasting_known (v : Value) : Lasting fun E => v.Known E := fun _ _ hE h => h.mono hE

theorem lasting_allKnown (args : List Value) : Lasting fun E => AllKnown E args :=
  fun _ _ hE h => h.mono hE

theorem Lasting.and {pre pre' : Functions → Prop} (h : Lasting pre) (h' : Lasting pre') :
    Lasting fun E => pre E ∧ pre' E :=
  fun E E' hE hpre => ⟨h E E' hE hpre.1, h' E E' hE hpre.2⟩

namespace Library

variable {args : Arguments}

/-- A comparison is a conversation as long as the values in it are known. -/
def Compares (comparator : Value) (before : Reentry → Value → Value → Action Bool) : Prop :=
  ∀ lhs rhs, Converses (fun E => comparator.Known E ∧ lhs.Known E ∧ rhs.Known E) (fun _ _ => True)
    fun call => before call lhs rhs

theorem compares_sortsBefore (comparator : Value) :
    Compares comparator fun call => sortsBefore call comparator := by
  intro lhs rhs
  refine .ite (.of_tame fun E _ => .lift (harmless_lessThan lhs rhs)) ?_
  have hcall : Converses (fun E => comparator.Known E ∧ lhs.Known E ∧ rhs.Known E) AllKnown
      fun call => Host.callBack call comparator [lhs, rhs] :=
    converses_callBack (fun E h => h.1) fun E h => .cons h.2.1 (.singleton h.2.2)
  refine hcall.bind ((lasting_known _).and ((lasting_known _).and (lasting_known _)))
    fun results => ?_
  exact .of_tame fun E _ => .pure trivial

variable {comparator : Value} {before : Reentry → Value → Value → Action Bool}

theorem converses_sink (h : Compares comparator before) (v : Value) (sorted : List Value) :
    Converses (fun E => comparator.Known E ∧ v.Known E ∧ AllKnown E sorted) AllKnown
      fun call => sink (before call) v sorted := by
  induction sorted with
  | nil => exact .of_tame fun E hE => .pure (.singleton hE.2.1)
  | cons last rest ih =>
    have hlasting : Lasting fun E => comparator.Known E ∧ v.Known E ∧ AllKnown E (last :: rest) :=
      (lasting_known _).and ((lasting_known _).and (lasting_allKnown _))
    refine ((h v last).imp fun E hE => ⟨hE.1, hE.2.1, hE.2.2 _ List.mem_cons_self⟩).bind hlasting
      fun sinks => .ite ?_ (.of_tame fun E hE => .pure (.cons hE.1.2.1 hE.1.2.2))
    refine (ih.imp fun E hE =>
      ⟨hE.1.1, hE.1.2.1, hE.1.2.2.of_subset (List.subset_cons_self _ _)⟩).bind
      (hlasting.and fun _ _ _ _ => trivial) fun sunk => ?_
    exact .of_tame fun E hE => .pure (.cons (hE.1.1.2.2 _ List.mem_cons_self) hE.2)

theorem converses_sortOnto (h : Compares comparator before) (vs sorted : List Value) :
    Converses (fun E => comparator.Known E ∧ AllKnown E vs ∧ AllKnown E sorted) AllKnown
      fun call => sortOnto (before call) sorted vs := by
  induction vs generalizing sorted with
  | nil => exact .of_tame fun E hE => .pure hE.2.2
  | cons v rest ih =>
    have hlasting : Lasting fun E =>
        comparator.Known E ∧ AllKnown E (v :: rest) ∧ AllKnown E sorted :=
      (lasting_known _).and ((lasting_allKnown _).and (lasting_allKnown _))
    refine ((converses_sink h v sorted).imp fun E hE =>
      ⟨hE.1, hE.2.1 _ List.mem_cons_self, hE.2.2⟩).bind hlasting fun sunk => ?_
    exact (ih sunk).imp fun E hE =>
      ⟨hE.1.1, hE.1.2.1.of_subset (List.subset_cons_self _ _), hE.2⟩

theorem converses_sort :
    Converses (fun E => AllKnown E args) AllKnown fun call => sort call args := by
  have hlasting := lasting_allKnown args
  have htable : Converses (fun E => AllKnown E args) (fun _ _ => True)
      fun _ => lift (args.table 0 "sort") := .of_tame fun E _ => .lift harmless_table
  refine htable.bind hlasting fun ref => ?_
  have hcontents : Converses (fun E => AllKnown E args ∧ True) (fun E t => Table.Known E t)
      fun _ => contents ref := .of_tame fun E _ => tame_contents ref
  have hlasting' := hlasting.and fun _ _ _ (_ : True) => trivial
  refine hcontents.bind hlasting' fun t => ?_
  have hlasting'' : Lasting fun E => (AllKnown E args ∧ True) ∧ Table.Known E t :=
    hlasting'.and fun _ _ hE ht e he => (ht e he).mono hE
  have hsort : Converses (fun E => (AllKnown E args ∧ True) ∧ Table.Known E t) AllKnown
      fun call => sortOnto (sortsBefore call (args.value 1)) [] t.sequence :=
    (converses_sortOnto (compares_sortsBefore _) _ []).imp fun E hE =>
      ⟨hE.1.1.value 1, hE.2.valuesFrom _ _, .nil⟩
  refine ((hsort.bind hlasting'' fun sorted => .of_tame fun E hE => .pure
    (hE.2.of_subset (List.reverse_subset.2 fun _ => id)) : Converses _ AllKnown _)).bind hlasting''
      fun sorted => ?_
  exact .of_tame fun E hE => (tame_changeTable ref fun t ht => ht.setSequence 1 hE.2).bind
    fun _ _ => .pure .nil

theorem converses_table (function : TableFunction) :
    Converses (fun E => AllKnown E args) AllKnown fun call => table function call args := by
  cases function with
  | insert => exact .of_tame fun E hE => tame_insert hE
  | remove => exact .of_tame fun E _ => tame_remove
  | concat => exact .of_tame fun E _ => tame_join
  | pack => exact .of_tame fun E hE => tame_pack hE
  | unpack => exact .of_tame fun E _ => tame_unpack
  | sort => exact converses_sort

end Library

namespace Host

variable {args : Arguments}

/-- What is made of an answer instead of failing. -/
def attempted : EStateM.Result Interrupt Store (List Value) →
    EStateM.Result Failure Store (List Value)
  | .ok results s => .ok (.boolean true :: results) s
  | .error (.error e) s => .ok [.boolean false, .string e.text] s
  | .error .outOfFuel s => .error (.interrupt .outOfFuel) s

theorem converses_attempt : Converses (fun E => AllKnown E args) AllKnown
    fun call => attempt call args := by
  have hattempted : (fun call => attempt call args) =
      fun call s => attempted (call (args.value 0) (args.drop 1) s) := by
    funext call s
    rw [attempt]
    rcases call (args.value 0) (args.drop 1) s with ⟨results, s⟩ | ⟨e | _, s⟩ <;> rfl
  rw [hattempted]
  refine converses_call attempted (fun E h => h.value 0)
    (fun E h => h.of_subset (List.drop_subset 1 args)) fun E answer hanswer => ?_
  rcases answer with ⟨results, s⟩ | ⟨e | _, s⟩
  · exact ⟨.cons trivial hanswer.1, hanswer.2, rfl⟩
  · exact ⟨.cons trivial (known_string _), hanswer, rfl⟩
  · exact ⟨rfl, hanswer, rfl⟩

theorem known_many (n : Nat) :
    AllKnown E ((List.range n).map fun i => .number (Number.ofNat (i + 1))) := by
  intro v hv
  obtain ⟨i, -, rfl⟩ := List.mem_map.1 hv
  trivial

theorem tame_emit : Tame E (AllKnown E) (emit args) := by
  refine .of_change .nil (fun s hs => ?_) fun s => ?_
  · induction args generalizing s with
    | nil => exact hs
    | cons v rest ih => exact ih _ (hs.emit _)
  · induction args generalizing s with
    | nil => rfl
    | cons v rest ih => exact ih _

theorem converses_function (key : String) :
    Converses (fun E => AllKnown E args) AllKnown fun call => function key call args := by
  have hcallee : ∀ E, AllKnown E args → (args.value 0).Known E := fun E h => h.value 0
  have hrest : ∀ E, AllKnown E args → AllKnown E (args.drop 1) :=
    fun E h => h.of_subset (List.drop_subset 1 args)
  unfold function
  split
  · exact .of_tame fun E _ => tame_emit
  · exact .of_tame fun E _ => .pure (known_many _)
  · exact .of_tame fun E _ => .pure (known_number _)
  · exact .of_tame fun E _ => .throw rfl
  · exact converses_callBack hcallee hrest
  · exact converses_attempt
  · exact (converses_callBack hcallee hrest).bind (lasting_allKnown args) fun results =>
      converses_callBack (fun E h => hcallee E h.1) fun E h => h.2
  · exact .of_tame fun E _ => .of_read fun s hs => .singleton (hs.globals.getD _)
  · exact .of_tame fun E h => .of_change .nil (fun s hs => hs.setGlobal _ (h.value 1)) fun _ => rfl
  · exact .of_tame fun E _ => .pure .nil

end Host

/-- **The native functions are honest**: none of them makes up a function. -/
theorem honest_run : ∃ talk, Honest (Library.run Host.function) talk := by
  have hrun : ∀ b args, Converses (fun E => AllKnown E args) AllKnown
      fun call => Library.run Host.function b call args := by
    intro b args
    cases b with
    | base function => exact .of_tame fun E h => Library.tame_base h function
    | string function =>
      exact .of_tame fun E _ => .lift (Library.harmless_stringFunction function)
    | table function => exact Library.converses_table function
    | math function => exact .of_tame fun E _ => .lift (Library.harmless_math function)
    | host key => exact Host.converses_function key
  choose talk hruns hkeeps using hrun
  exact ⟨talk, fun b call args s => hruns b args s call, fun b args s E => hkeeps b args s E⟩

/-! ### The library in a store -/

namespace Library

theorem known_makeNatives (functions : List (String × Builtin)) {s : Store} (hs : s.Known E) :
    (∀ e ∈ (makeNatives functions s).1, e.2.Known E) ∧ (makeNatives functions s).2.Known E := by
  unfold makeNatives
  have hfold (made : List (String × Value)) (hmade : ∀ e ∈ made, e.2.Known E) (s : Store)
      (hs : s.Known E) :
      let result := functions.foldl (fun made f =>
        (made.1 ++ [(f.1, (made.2.newNative f.1 f.2).1)], (made.2.newNative f.1 f.2).2)) (made, s)
      (∀ e ∈ result.1, e.2.Known E) ∧ result.2.Known E := by
    induction functions generalizing made s with
    | nil => exact ⟨hmade, hs⟩
    | cons f rest ih =>
      refine ih _ (fun e he => ?_) _ (hs.newNative f.1 f.2)
      rcases List.mem_append.1 he with he | he
      · exact hmade e he
      · rw [List.mem_singleton.1 he]
        trivial
  exact hfold [] (List.forall_mem_nil _) s hs

theorem known_installTable (name : String) (functions : List (String × Builtin))
    (constants : List (String × Float)) {s : Store} (hs : s.Known E) :
    (installTable name functions constants s).Known E := by
  obtain ⟨hmade, hstore⟩ := known_makeNatives functions hs
  refine Store.Known.setGlobal (Store.Known.newTable hstore (Table.known_ofEntries fun e he => ?_))
    name trivial
  obtain ⟨entry, hentry, rfl⟩ := List.mem_map.1 he
  rcases List.mem_append.1 hentry with hentry | hentry
  · exact hmade entry hentry
  · obtain ⟨constant, -, rfl⟩ := List.mem_map.1 hentry
    trivial

/-- The store that holds the library holds no script functions. -/
theorem known_install {s : Store} (hs : s.Known E) : (install s).Known E := by
  obtain ⟨hmade, hstore⟩ := known_makeNatives (E := E)
    (baseFunctions.map fun f => (f.name, .base f)) hs
  have hglobals (made : List (String × Value)) (hmade : ∀ e ∈ made, e.2.Known E) (s : Store)
      (hs : s.Known E) : (made.foldl (fun s e => s.setGlobal e.1 e.2) s).Known E := by
    induction made generalizing s with
    | nil => exact hs
    | cons e rest ih =>
      obtain ⟨he, hrest⟩ := List.forall_mem_cons.1 hmade
      exact ih hrest _ (hs.setGlobal e.1 he)
  simp only [install]
  refine known_installTable _ _ _ (known_installTable _ _ _ (known_installTable _ _ _ ?_))
  exact hglobals _ hmade _ hstore

end Library

end ScriptEngine
