import ScriptEngine.Proofs.Pieces.Places

/-!
# The statements that occur in a text are located

Places are given to lists of statements, from the outside to the inside and from function to
function.  Nothing is left out in a text that is well-formed: whatever occurs in its tree has its
place, and stands in a loop if and only if it occurs in one.

## Main definitions

* `Node.functions` — the function literals of a part of a syntax tree.
* `Node.IsLocated` — a list of statements, or a statement, has its place.

## Main results

* `Node.functions_of_occurs` — the literals of all nodes of a text are literals of the text.
* `Node.isLocated_of_occurs` — the statements that occur in a text are located.
-/

namespace ScriptEngine

/-! ### Function literals of nodes -/

/-- The function literals of a node. -/
def Node.functions : Node → List FunctionLiteral
  | chunk body => chunkFunctions body
  | stat s => s.functions
  | expr e => e.functions

section Lists

variable {f : FunctionLiteral}

theorem mem_valuesFunctions {es : List Expr} :
    f ∈ valuesFunctions es ↔ ∃ e ∈ es, f ∈ e.functions := by
  induction es with
  | nil => simp [valuesFunctions]
  | cons e rest ih => simp [valuesFunctions, ih]

theorem mem_entriesFunctions {entries : List (Expr × Expr)} :
    f ∈ entriesFunctions entries ↔ ∃ e ∈ entries, f ∈ e.1.functions ∨ f ∈ e.2.functions := by
  induction entries with
  | nil => simp [entriesFunctions]
  | cons e rest ih =>
    simp only [entriesFunctions, List.mem_append, ih, List.exists_mem_cons_iff, or_assoc, or_comm]

theorem mem_storesFunctions {targets : List Expr} (h : ∀ e ∈ targets, e.isTarget) :
    f ∈ storesFunctions targets ↔ ∃ e ∈ targets, f ∈ e.functions := by
  induction targets with
  | nil => simp [storesFunctions]
  | cons e rest ih =>
    obtain ⟨he, hrest⟩ := List.forall_mem_cons.1 h
    rw [List.exists_mem_cons_iff, ← ih hrest]
    rcases e.var_or_index he with ⟨position, name, rfl⟩ | ⟨position, table, key, rfl⟩
    · simp [storesFunctions, Expr.functions]
    · simp only [storesFunctions, Expr.functions, List.mem_append]
      tauto

theorem mem_branchesFunctions {last : List FunctionLiteral} {branches : List (Expr × List Stat)} :
    f ∈ branchesFunctions last branches ↔
      f ∈ last ∨ ∃ b ∈ branches, f ∈ b.1.functions ∨ f ∈ chunkFunctions b.2 := by
  induction branches with
  | nil => simp [branchesFunctions]
  | cons b rest ih =>
    simp only [branchesFunctions, List.mem_append, ih, List.exists_mem_cons_iff, or_assoc, or_comm,
      or_left_comm]

theorem mem_chunkFunctions {body : List Stat} :
    f ∈ chunkFunctions body ↔ ∃ s ∈ body, f ∈ s.functions := by
  induction body with
  | nil => simp [chunkFunctions]
  | cons s rest ih => simp [chunkFunctions, ih]

end Lists

namespace Node

variable {n child : Node} {inLoop : Bool} {f : FunctionLiteral}

/-- The literals of what an expression directly contains are literals of the expression. -/
theorem functions_of_mem_expr {e : Expr} (hchild : child ∈ (expr e).children)
    (hf : f ∈ child.functions) : f ∈ e.functions := by
  cases e with
  | literal | var => cases hchild
  | function position parameters body =>
    obtain rfl := List.mem_singleton.1 hchild
    exact List.mem_cons_of_mem _ hf
  | table position entries =>
    obtain ⟨entry, hentry, hchild⟩ := List.mem_flatMap.1 hchild
    simp only [List.mem_cons, List.not_mem_nil, or_false] at hchild
    refine mem_entriesFunctions.2 ⟨entry, hentry, ?_⟩
    rcases hchild with rfl | rfl
    · exact .inl hf
    · exact .inr hf
  | call position callee arguments =>
    rw [Expr.functions, List.mem_append]
    rcases List.mem_cons.1 hchild with rfl | hchild
    · exact .inr hf
    · obtain ⟨e, he, rfl⟩ := List.mem_map.1 hchild
      exact .inl (mem_valuesFunctions.2 ⟨e, he, hf⟩)
  | index | binary =>
    simp only [children, List.mem_cons, List.not_mem_nil, or_false] at hchild
    rw [Expr.functions, List.mem_append]
    rcases hchild with rfl | rfl
    · exact .inr hf
    · exact .inl hf
  | group | unary =>
    obtain rfl := List.mem_singleton.1 hchild
    exact hf

/-- The literals of what a well-formed statement directly contains are literals of the
statement. -/
theorem functions_of_mem_stat {s : Stat} (h : s.formed inLoop) (hchild : child ∈ (stat s).children)
    (hf : f ∈ child.functions) : f ∈ s.functions := by
  cases s with
  | expression | localFunction | block =>
    obtain rfl := List.mem_singleton.1 hchild
    exact hf
  | declaration | leave => cases hchild
  | assignment position isLocal targets values =>
    obtain ⟨e, he, rfl⟩ := List.mem_map.1 hchild
    have htargets : ∀ target ∈ targets, target.isTarget := by
      simp only [Stat.formed, Bool.and_eq_true, List.all_eq_true] at h
      intro target htarget
      have hkind := h.1.1.2 target htarget
      cases isLocal with
      | true =>
        obtain ⟨position, name, rfl⟩ := Expr.exists_var hkind
        rfl
      | false => exact hkind
    rw [Stat.functions, List.mem_append, mem_valuesFunctions, mem_storesFunctions htargets]
    rcases List.mem_append.1 he with he | he
    · exact .inr ⟨e, he, hf⟩
    · exact .inl ⟨e, he, hf⟩
  | conditional position branches otherwise =>
    have hfunctions : (Stat.conditional position branches otherwise).functions =
        branchesFunctions ((otherwise.map chunkFunctions).getD []) branches := by
      cases otherwise <;> rfl
    rw [hfunctions, mem_branchesFunctions]
    rcases List.mem_append.1 hchild with hchild | hchild
    · obtain ⟨b, hb, hchild⟩ := List.mem_flatMap.1 hchild
      simp only [List.mem_cons, List.not_mem_nil, or_false] at hchild
      rcases hchild with rfl | rfl
      · exact .inr ⟨b, hb, .inl hf⟩
      · exact .inr ⟨b, hb, .inr hf⟩
    · obtain ⟨body, hbody, rfl⟩ := List.mem_map.1 hchild
      obtain rfl := Option.mem_toList.1 hbody
      exact .inl hf
  | whileLoop position condition body =>
    simp only [children, List.mem_cons, List.not_mem_nil, or_false] at hchild
    rw [Stat.functions, List.mem_append]
    rcases hchild with rfl | rfl
    · exact .inr hf
    · exact .inl hf
  | repeatLoop position body condition =>
    simp only [children, List.mem_cons, List.not_mem_nil, or_false] at hchild
    rw [Stat.functions, List.mem_append]
    rcases hchild with rfl | rfl
    · exact .inl hf
    · exact .inr hf
  | numericFor position start stop step body =>
    have hfunctions : (Stat.numericFor position start stop step body).functions =
        chunkFunctions body ++ valuesFunctions step.toList ++ stop.functions ++
          start.functions := by
      cases step <;> simp [Stat.functions, valuesFunctions]
    rw [hfunctions]
    simp only [List.mem_append]
    simp only [children, List.mem_cons, List.mem_map] at hchild
    rcases hchild with rfl | rfl | rfl | ⟨e, he, rfl⟩
    · exact .inr hf
    · exact .inl (.inr hf)
    · exact .inl (.inl (.inl hf))
    · exact .inl (.inl (.inr (mem_valuesFunctions.2 ⟨e, he, hf⟩)))
  | genericFor position names iterators body =>
    rw [Stat.functions, List.mem_append]
    rcases List.mem_cons.1 hchild with rfl | hchild
    · exact .inl hf
    · obtain ⟨e, he, rfl⟩ := List.mem_map.1 hchild
      exact .inr (mem_valuesFunctions.2 ⟨e, he, hf⟩)
  | result position values =>
    obtain ⟨e, he, rfl⟩ := List.mem_map.1 hchild
    exact mem_valuesFunctions.2 ⟨e, he, hf⟩

theorem functions_of_mem_children (h : n.formed inLoop) (hchild : child ∈ n.children)
    (hf : f ∈ child.functions) : f ∈ n.functions := by
  cases n with
  | chunk body =>
    obtain ⟨s, hs, rfl⟩ := List.mem_map.1 hchild
    exact mem_chunkFunctions.2 ⟨s, hs, hf⟩
  | stat s => exact functions_of_mem_stat h hchild hf
  | expr e => exact functions_of_mem_expr hchild hf

variable {text : Chunk}

/-- **The function literals of all nodes in a text are literals of the text.** -/
theorem functions_of_occurs (htext : chunkFormed false text) (h : Occurs text inLoop n) :
    ∀ f ∈ n.functions, f ∈ chunkFunctions text := by
  induction h with
  | text => exact fun _ hf => hf
  | child h hchild ih =>
    exact fun f hf => ih f (functions_of_mem_children (formed_of_occurs htext h) hchild hf)

end Node

/-! ### Kinds of nodes -/

theorem Node.stat_not_mem_stat (s s' : Stat) : stat s' ∉ (stat s).children := by
  cases s <;> simp [children]

theorem Node.stat_not_mem_expr (e : Expr) (s : Stat) : stat s ∉ (expr e).children := by
  cases e <;> simp [children]

/-- Only a function literal directly contains statements. -/
theorem Node.eq_function_of_chunk_mem {e : Expr} {body : Chunk}
    (h : chunk body ∈ (expr e).children) :
    ∃ position parameters, e = .function position parameters body := by
  cases e with
  | function position parameters body' =>
    obtain rfl : body = body' := by simpa [children] using h
    exact ⟨position, parameters, rfl⟩
  | _ => simp [children] at h

/-! ### Places of nodes -/

section Places

variable {p : Program} {text : Chunk} {next ip : Nat} {site : Option LoopSite}

/-- Every statement of a list has its place. -/
theorem Located.of_mem {keep : Bool} {body : List Stat} {s : Stat}
    (h : Located p text (.body keep body) next ip site) (hs : s ∈ body) :
    ∃ rest next ip, Located p text (.body keep (s :: rest)) next ip site := by
  induction body generalizing next ip with
  | nil => cases hs
  | cons s' rest ih =>
    rcases List.mem_cons.1 hs with rfl | hs
    · exact ⟨rest, next, ip, h⟩
    · exact ih h.tail hs

/-- Every branch has its place, and so has what is behind the last one. -/
theorem Located.of_branches {position : Position} {otherwise : Option (List Stat)}
    {branches : List (Expr × List Stat)} {body : List Stat}
    (h : Located p text (.branches position otherwise branches) next ip site)
    (hbody : body ∈ branches.map Prod.snd ∨ otherwise = some body) :
    ∃ next ip, Located p text (.body false body) next ip (site.map LoopSite.inner) := by
  induction branches generalizing next ip with
  | nil =>
    rcases hbody with hbody | rfl
    · cases hbody
    · exact ⟨_, _, h.otherwise⟩
  | cons b rest ih =>
    rw [List.map_cons, List.mem_cons, or_assoc] at hbody
    rcases hbody with rfl | hbody
    · exact ⟨_, _, h.branch⟩
    · exact ih h.others hbody

/-- The body of every function has its place. -/
theorem Located.of_mem_functions {f : FunctionLiteral} (hf : f ∈ chunkFunctions text) :
    ∃ next ip, Located p text (.body false f.body) next ip none := by
  obtain ⟨number, hnumber⟩ := List.getElem?_of_mem hf
  have hlength : (chunkPlaces p.size text).length = (chunkFunctions text).length := by
    rw [chunkPlaces, length_placesFrom, length_functionCodes]
  have hlt : number < (chunkPlaces p.size text).length :=
    hlength ▸ (List.getElem?_eq_some_iff.1 hnumber).1
  exact ⟨_, _, .function hnumber (List.getElem?_eq_getElem hlt)⟩

/-- A list of statements, or a statement, has its place; `inLoop` says whether it is in a loop. -/
def Node.IsLocated (p : Program) (text : Chunk) (inLoop : Bool) : Node → Prop
  | chunk body => ∃ keep next ip site, Located p text (.body keep body) next ip site ∧
      site.isSome = inLoop
  | stat s => ∃ keep rest next ip site, Located p text (.body keep (s :: rest)) next ip site ∧
      site.isSome = inLoop
  | expr _ => True

/-- A list of statements that a statement directly contains has its place. -/
theorem Located.of_mem_stat {keep : Bool} {s : Stat} {rest body : List Stat}
    (h : Located p text (.body keep (s :: rest)) next ip site)
    (hchild : Node.chunk body ∈ (Node.stat s).children) :
    (Node.chunk body).IsLocated p text (s.isLoop || site.isSome) := by
  have hloop (hbody : s.loopBody? = some body) (hs : s.isLoop = true) :
      (Node.chunk body).IsLocated p text (s.isLoop || site.isSome) := by
    rw [hs]
    exact ⟨_, _, _, _, h.loop hbody, rfl⟩
  cases s with
  | block body' =>
    obtain rfl : body = body' := by simpa [Node.children] using hchild
    exact ⟨_, _, _, _, h.block, Option.isSome_map⟩
  | conditional position branches otherwise =>
    have hbranch : body ∈ branches.map Prod.snd ∨ otherwise = some body := by
      simpa [Node.children] using hchild
    obtain ⟨_, _, hlocated⟩ := h.conditional.of_branches hbranch
    exact ⟨_, _, _, _, hlocated, Option.isSome_map⟩
  | whileLoop | numericFor | genericFor | repeatLoop =>
    exact hloop (by simpa [Node.children, Stat.loopBody?, eq_comm] using hchild) rfl
  | _ => simp [Node.children] at hchild

/-- **The statements that occur in a text are located**, and those that occur in loops are located
in loops. -/
theorem Node.isLocated_of_occurs {n : Node} {inLoop : Bool} (htext : chunkFormed false text)
    (h : Occurs text inLoop n) : n.IsLocated p text inLoop := by
  induction h with
  | text => exact ⟨_, _, _, _, .text, rfl⟩
  | @child inLoop n child h hchild ih =>
    cases n with
    | chunk body =>
      obtain ⟨s, hs, rfl⟩ := List.mem_map.1 hchild
      obtain ⟨keep, _, _, site, hlocated, hsite⟩ := ih
      obtain ⟨rest, next, ip, hlocated⟩ := hlocated.of_mem hs
      exact ⟨keep, rest, next, ip, site, hlocated, hsite⟩
    | stat s =>
      cases child with
      | chunk body =>
        obtain ⟨_, _, _, _, _, hlocated, rfl⟩ := ih
        exact hlocated.of_mem_stat hchild
      | stat => exact absurd hchild (Node.stat_not_mem_stat s _)
      | expr => trivial
    | expr e =>
      cases child with
      | chunk body =>
        obtain ⟨position, parameters, rfl⟩ := Node.eq_function_of_chunk_mem hchild
        obtain ⟨_, _, hlocated⟩ := Located.of_mem_functions (p := p)
          (Node.functions_of_occurs htext h ⟨position, parameters, body⟩ List.mem_cons_self)
        exact ⟨_, _, _, _, hlocated, rfl⟩
      | stat => exact absurd hchild (Node.stat_not_mem_expr e _)
      | expr => trivial

end Places

end ScriptEngine
