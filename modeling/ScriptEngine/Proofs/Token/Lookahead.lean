import Mathlib.Data.List.Basic
import Mathlib.Order.WellFounded
import ScriptEngine.Token.Lexer

/-!
# Looking ahead

A lexer can be asked for the next token, and for one further ahead without taking it.  Its
state is described by the answers that requests for the next token would get from now on.
A look ahead that finds its token leaves them as they are.  One that meets an error does
not: the tokens before the error are kept, but the error itself has been read, nothing
keeps it, and reading goes on behind it.  So a run of requests takes the answers of plain
reading in their order, without those that failed looks ahead have been given.

## Main definitions

* `Lexer.Request`, `Lexer.transcript` — a run of requests with their answers.
* `Lexer.upcoming` — the answers of plain reading.
* `besides` — the numbers without one of them.
* `Lexer.Drops` — a run takes the answers of plain reading without those at some places.

## Main results

* `Lexer.peek_cases` — what a look ahead does to the upcoming answers.
* `Lexer.exists_drops` — what a run takes.
* `Lexer.transcript_of_lookahead` — **looking ahead changes what is read only by failing.**
-/

namespace ScriptEngine

/-- Whether an answer is a token. -/
def Answer.isToken : Answer → Bool
  | .token _ => true
  | _ => false

/-! ### The numbers without one of them -/

/-- The number at a place among those that are not `k`. -/
def besides (k i : Nat) : Nat := if i < k then i else i + 1

theorem besides_of_lt {k i : Nat} (h : i < k) : besides k i = i := if_pos h

theorem besides_of_le {k i : Nat} (h : k ≤ i) : besides k i = i + 1 := if_neg (Nat.not_lt.2 h)

theorem besides_succ (k i : Nat) : besides (k + 1) (i + 1) = besides k i + 1 := by
  unfold besides
  split <;> split <;> omega

theorem strictMono_besides (k : Nat) : StrictMono (besides k) := by
  refine strictMono_nat_of_lt_succ fun i => ?_
  unfold besides
  split <;> split <;> omega

theorem exists_besides_eq_iff {k j : Nat} : (∃ i, besides k i = j) ↔ j ≠ k := by
  constructor
  · rintro ⟨i, rfl⟩
    unfold besides
    split <;> omega
  · intro h
    rcases Nat.lt_or_gt_of_ne h with hlt | hgt
    · exact ⟨j, besides_of_lt hlt⟩
    · exact ⟨j - 1, by rw [besides_of_le (by omega)]; omega⟩

namespace Lexer

/-! ### Upcoming answers -/

/-- The answers that requests for the next token get one after another, if nothing else is
asked for. -/
def upcoming (lexer : Lexer) : Nat → Answer
  | 0 => lexer.next.1
  | n + 1 => lexer.next.2.upcoming n

variable {lexer : Lexer} {cursor cursor' : Cursor} {queue : List Token} {t : Token}
  {answer : Answer}

/-- Tokens that are in the queue come first. -/
theorem upcoming_of_lt {i : Nat} (h : i < queue.length) :
    (Lexer.mk cursor queue).upcoming i = .token queue[i] := by
  induction queue generalizing i with
  | nil => exact absurd h (Nat.not_lt_zero i)
  | cons t queue ih =>
    cases i with
    | zero => rfl
    | succ i => exact ih (Nat.lt_of_succ_lt_succ h)

/-- What is read behind the queue is answered when the queue has been taken. -/
theorem upcoming_length (h : cursor.lex = (answer, cursor')) :
    (Lexer.mk cursor queue).upcoming queue.length = answer := by
  induction queue with
  | nil => exact congrArg Prod.fst h
  | cons t queue ih => exact ih

/-- A token that is read into the queue is answered as it would have been. -/
theorem upcoming_push (h : cursor.lex = (.token t, cursor')) :
    (Lexer.mk cursor' (queue ++ [t])).upcoming = (Lexer.mk cursor queue).upcoming := by
  funext i
  induction queue generalizing i with
  | nil =>
    have hnext : (Lexer.mk cursor []).next = (.token t, ⟨cursor', []⟩) := by
      rw [next]
      simp only [h]
    have htoken : (Lexer.mk cursor' ([] ++ [t])).next = (.token t, ⟨cursor', []⟩) := rfl
    cases i with
    | zero => rw [upcoming, upcoming, hnext, htoken]
    | succ i => rw [upcoming, upcoming, hnext, htoken]
  | cons t' queue ih =>
    cases i with
    | zero => rfl
    | succ i => exact ih i

/-- What is read and not kept is left out. -/
theorem upcoming_skip (h : cursor.lex = (answer, cursor')) (i : Nat) :
    (Lexer.mk cursor' queue).upcoming i =
      (Lexer.mk cursor queue).upcoming (besides queue.length i) := by
  induction queue generalizing i with
  | nil =>
    have hnext : (Lexer.mk cursor []).next = (answer, ⟨cursor', []⟩) := by
      rw [next]
      simp only [h]
    rw [List.length_nil, besides_of_le (Nat.zero_le i), upcoming, hnext]
  | cons t queue ih =>
    cases i with
    | zero => rfl
    | succ i => rw [List.length_cons, besides_succ]; exact ih i

/-! ### Looks ahead -/

/-- Reading into the queue either adds as many tokens as are asked for, or stops at an
answer that is none, which is then no longer among those to come. -/
theorem fetch_cases (n : Nat) (lexer : Lexer) :
    (∃ lexer', lexer.fetch n = (none, lexer') ∧ lexer'.queue.length = lexer.queue.length + n ∧
      lexer'.upcoming = lexer.upcoming) ∨
    ∃ k lexer', lexer.fetch n = (some (lexer.upcoming k), lexer') ∧
      (lexer.upcoming k).isToken = false ∧ lexer.queue.length ≤ k ∧ k < lexer.queue.length + n ∧
      lexer'.queue.length = k ∧ ∀ i, lexer'.upcoming i = lexer.upcoming (besides k i) := by
  induction n generalizing lexer with
  | zero => exact .inl ⟨lexer, rfl, rfl, rfl⟩
  | succ n ih =>
    obtain ⟨cursor, queue⟩ := lexer
    cases hlex : cursor.lex with
    | mk answer cursor' =>
      have hother (hanswer : answer.isToken = false)
          (hfetch : (Lexer.mk cursor queue).fetch (n + 1) = (some answer, ⟨cursor', queue⟩)) :
          ∃ k lexer', (Lexer.mk cursor queue).fetch (n + 1) =
              (some ((Lexer.mk cursor queue).upcoming k), lexer') ∧
            ((Lexer.mk cursor queue).upcoming k).isToken = false ∧ queue.length ≤ k ∧
            k < queue.length + (n + 1) ∧ lexer'.queue.length = k ∧
            ∀ i, lexer'.upcoming i = (Lexer.mk cursor queue).upcoming (besides k i) := by
        refine ⟨queue.length, ⟨cursor', queue⟩, ?_, ?_, Nat.le_refl _, by omega, rfl,
          upcoming_skip hlex⟩
        · rw [upcoming_length hlex, hfetch]
        · rw [upcoming_length hlex]
          exact hanswer
      cases answer with
      | token t =>
        have hfetch : (Lexer.mk cursor queue).fetch (n + 1) =
            (Lexer.mk cursor' (queue ++ [t])).fetch n := by
          rw [fetch]
          simp only [hlex]
        have hupcoming : (Lexer.mk cursor' (queue ++ [t])).upcoming =
          (Lexer.mk cursor queue).upcoming := upcoming_push hlex
        have hqueue : (Lexer.mk cursor' (queue ++ [t])).queue.length =
          (Lexer.mk cursor queue).queue.length + 1 := List.length_append
        rw [hfetch, ← hupcoming]
        rcases ih ⟨cursor', queue ++ [t]⟩ with
          ⟨lexer', hrun, hlength, hkept⟩ | ⟨k, lexer', hrun, hnone, hlow, hhigh, hlength, hkept⟩
        · exact .inl ⟨lexer', hrun, by omega, hkept⟩
        · exact .inr ⟨k, lexer', hrun, hnone, by omega, by omega, hlength, hkept⟩
      | error e => exact .inr (hother rfl (by rw [fetch]; simp only [hlex]))
      | insideCharacter => exact .inr (hother rfl (by rw [fetch]; simp only [hlex]))

/-- **What a look ahead does.**  It finds its token and leaves the upcoming answers as they
are; or it meets an answer that is none, before the token or in its place, and gives that
one, which is then left out. -/
theorem peek_cases (lexer : Lexer) (ahead : Nat) :
    (∃ t lexer', lexer.peek ahead = (.token t, lexer') ∧ lexer.upcoming ahead = .token t ∧
      ahead < lexer'.queue.length ∧ lexer.queue.length ≤ lexer'.queue.length ∧
      lexer'.upcoming = lexer.upcoming) ∨
    ∃ k lexer', lexer.peek ahead = (lexer.upcoming k, lexer') ∧
      (lexer.upcoming k).isToken = false ∧ lexer.queue.length ≤ k ∧ k ≤ ahead ∧
      lexer'.queue.length = k ∧ ∀ i, lexer'.upcoming i = lexer.upcoming (besides k i) := by
  rcases fetch_cases (ahead + 1 - lexer.queue.length) lexer with
    ⟨lexer', hrun, hlength, hkept⟩ | ⟨k, lexer', hrun, hnone, hlow, hhigh, hlength, hkept⟩
  · have hahead : ahead < lexer'.queue.length := by omega
    refine .inl ⟨lexer'.queue[ahead], lexer', ?_, ?_, hahead, by omega, hkept⟩
    · rw [peek]
      simp only [hrun, List.getD_eq_getElem?_getD, List.getElem?_eq_getElem hahead,
        Option.getD_some]
    · rw [← hkept]
      exact upcoming_of_lt hahead
  · refine .inr ⟨k, lexer', ?_, hnone, hlow, by omega, hlength, hkept⟩
    rw [peek]
    simp only [hrun]

/-! ### Runs of requests -/

/-- What a lexer is asked for: the next token, or a look at the one that `ahead` further
ones stand before. -/
inductive Request where
  | next
  | peek (ahead : Nat)
deriving DecidableEq, Repr

/-- The answer to a request, and the lexer behind it. -/
def ask (lexer : Lexer) : Request → Answer × Lexer
  | .next => lexer.next
  | .peek ahead => lexer.peek ahead

/-- The lexer behind a run of requests. -/
def after (lexer : Lexer) (requests : List Request) : Lexer :=
  requests.foldl (fun lexer request => (lexer.ask request).2) lexer

/-- A run of requests with their answers. -/
def transcript (lexer : Lexer) : List Request → List (Request × Answer)
  | [] => []
  | request :: rest => (request, (lexer.ask request).1) :: (lexer.ask request).2.transcript rest

/-- The answers to the requests for the next token. -/
def taken (log : List (Request × Answer)) : List Answer :=
  (log.filter fun e => e.1 = .next).map Prod.snd

/-- The answers of the looks ahead that have found no token. -/
def lost (log : List (Request × Answer)) : List Answer :=
  (log.filter fun e => e.1 ≠ .next ∧ e.2.isToken = false).map Prod.snd

/-- A run takes the answers of plain reading in their order, without those at some places,
which are the ones that failed looks ahead have been given.  Nothing of what is in the
queue is left out. -/
structure Drops (lexer : Lexer) (log : List (Request × Answer)) (place : Nat → Nat)
    (dropped : List Nat) : Prop where
  taken : ∀ i answer, (taken log)[i]? = some answer → answer = lexer.upcoming (place i)
  lost : lost log = dropped.map lexer.upcoming
  order : StrictMono place
  sorted : dropped.Pairwise (· < ·)
  mem_iff : ∀ j, j ∈ dropped ↔ ¬ ∃ i, place i = j
  queued : ∀ i < lexer.queue.length, place i = i

section Drops

variable {lexer lexer' : Lexer} {log : List (Request × Answer)} {place : Nat → Nat}
  {dropped : List Nat} {answer : Answer} {ahead : Nat}

theorem drops_nil (lexer : Lexer) : Drops lexer [] id [] where
  taken _ _ h := by cases h
  lost := rfl
  order := strictMono_id
  sorted := .nil
  mem_iff j := iff_of_false List.not_mem_nil (not_not.2 ⟨j, rfl⟩)
  queued _ _ := rfl

/-- The place that is behind the first one when a token has been taken. -/
def behindFirst (place : Nat → Nat) : Nat → Nat
  | 0 => 0
  | i + 1 => place i + 1

/-- A request for the next token takes the first upcoming answer. -/
theorem Drops.next (h : Drops lexer.next.2 log place dropped) :
    Drops lexer ((.next, lexer.next.1) :: log) (behindFirst place) (dropped.map (· + 1)) where
  taken i answer hanswer := by
    have hcons : Lexer.taken ((.next, lexer.next.1) :: log) = lexer.next.1 :: Lexer.taken log := rfl
    rw [hcons] at hanswer
    cases i with
    | zero => exact (Option.some.inj hanswer).symm
    | succ i => exact h.taken i answer hanswer
  lost := by
    have hcons : Lexer.lost ((.next, lexer.next.1) :: log) = Lexer.lost log := rfl
    rw [hcons, h.lost, List.map_map]
    rfl
  order := by
    refine strictMono_nat_of_lt_succ fun i => ?_
    cases i with
    | zero => exact Nat.succ_pos _
    | succ i => exact Nat.succ_lt_succ (h.order (Nat.lt_succ_self i))
  sorted := by
    rw [List.pairwise_map]
    exact h.sorted.imp Nat.succ_lt_succ
  mem_iff j := by
    cases j with
    | zero => exact iff_of_false (by simp) (not_not.2 ⟨0, rfl⟩)
    | succ j =>
      have hplace : (∃ i, behindFirst place i = j + 1) ↔ ∃ i, place i = j := by
        constructor
        · rintro ⟨i, hi⟩
          cases i with
          | zero => cases hi
          | succ i => exact ⟨i, Nat.succ.inj hi⟩
        · rintro ⟨i, rfl⟩
          exact ⟨i + 1, rfl⟩
      rw [hplace, ← h.mem_iff]
      simp
  queued i hi := by
    obtain ⟨cursor, queue⟩ := lexer
    cases i with
    | zero => rfl
    | succ i =>
      cases queue with
      | nil => exact absurd hi (Nat.not_lt_zero _)
      | cons t queue => exact congrArg Nat.succ (h.queued i (Nat.lt_of_succ_lt_succ hi))

/-- A look ahead that finds its token drops nothing. -/
theorem Drops.found (h : Drops lexer' log place dropped) (hkept : lexer'.upcoming = lexer.upcoming)
    (hlength : lexer.queue.length ≤ lexer'.queue.length) (htoken : answer.isToken = true) :
    Drops lexer ((.peek ahead, answer) :: log) place dropped where
  taken i answer hanswer := hkept ▸ h.taken i answer hanswer
  lost := by
    have hcons : Lexer.lost ((.peek ahead, answer) :: log) = Lexer.lost log := by
      simp [Lexer.lost, htoken]
    rw [hcons, h.lost, hkept]
  order := h.order
  sorted := h.sorted
  mem_iff := h.mem_iff
  queued i hi := h.queued i (Nat.lt_of_lt_of_le hi hlength)

/-- A look ahead that fails drops the answer it is given. -/
theorem Drops.failed {k : Nat} (h : Drops lexer' log place dropped)
    (hkept : ∀ i, lexer'.upcoming i = lexer.upcoming (besides k i))
    (hlow : lexer.queue.length ≤ k) (hlength : lexer'.queue.length = k)
    (hnone : (lexer.upcoming k).isToken = false) :
    Drops lexer ((.peek ahead, lexer.upcoming k) :: log) (fun i => besides k (place i))
      (k :: dropped.map (besides k)) where
  taken i answer hanswer := (h.taken i answer hanswer).trans (hkept _)
  lost := by
    have hcons : Lexer.lost ((.peek ahead, lexer.upcoming k) :: log) =
        lexer.upcoming k :: Lexer.lost log := by
      simp [Lexer.lost, hnone]
    rw [hcons, h.lost, List.map_cons, List.map_map]
    exact congrArg (lexer.upcoming k :: ·) (List.map_congr_left fun j _ => hkept j)
  order := (strictMono_besides k).comp h.order
  sorted := by
    rw [List.pairwise_cons, List.pairwise_map]
    refine ⟨fun j' hj' => ?_, h.sorted.imp fun hlt => strictMono_besides k hlt⟩
    obtain ⟨j, hj, rfl⟩ := List.mem_map.1 hj'
    -- What is dropped later is behind the queue.
    have hbehind : k ≤ j := Nat.le_of_not_lt fun hlt =>
      (h.mem_iff j).1 hj ⟨j, h.queued j (by omega)⟩
    rw [besides_of_le hbehind]
    omega
  mem_iff j := by
    by_cases hj : j = k
    · subst hj
      refine iff_of_true (List.mem_cons_self ..) ?_
      rintro ⟨i, hi⟩
      exact exists_besides_eq_iff.1 ⟨place i, hi⟩ rfl
    · obtain ⟨j, rfl⟩ := exists_besides_eq_iff.2 hj
      have hplace : (∃ i, besides k (place i) = besides k j) ↔ ∃ i, place i = j :=
        exists_congr fun i => (strictMono_besides k).injective.eq_iff
      rw [List.mem_cons, or_iff_right hj,
        List.mem_map_of_injective (strictMono_besides k).injective, hplace, h.mem_iff]
  queued i hi := by
    rw [h.queued i (by omega), besides_of_lt (by omega)]

/-- **What a run takes.** -/
theorem exists_drops (lexer : Lexer) (requests : List Request) :
    ∃ place dropped, Drops lexer (lexer.transcript requests) place dropped := by
  induction requests generalizing lexer with
  | nil => exact ⟨id, [], drops_nil lexer⟩
  | cons request requests ih =>
    cases request with
    | next =>
      obtain ⟨place, dropped, h⟩ := ih lexer.next.2
      exact ⟨_, _, h.next⟩
    | peek ahead =>
      have hlog (answer : Answer) (lexer' : Lexer) (h : lexer.peek ahead = (answer, lexer')) :
          lexer.transcript (.peek ahead :: requests) =
            (.peek ahead, answer) :: lexer'.transcript requests := by
        rw [transcript, ask, h]
      rcases peek_cases lexer ahead with
        ⟨t, lexer', hpeek, -, -, hlength, hkept⟩ |
        ⟨k, lexer', hpeek, hnone, hlow, -, hlength, hkept⟩
      · obtain ⟨place, dropped, h⟩ := ih lexer'
        exact ⟨_, _, hlog _ _ hpeek ▸ h.found hkept hlength rfl⟩
      · obtain ⟨place, dropped, h⟩ := ih lexer'
        exact ⟨_, _, hlog _ _ hpeek ▸ h.failed hkept hlow hlength hnone⟩

/-- Where nothing is dropped every place stays. -/
theorem Drops.place_eq (h : Drops lexer log place []) (i : Nat) : place i = i := by
  induction i using Nat.strongRecOn with
  | ind i ih =>
    obtain ⟨j, hj⟩ : ∃ j, place j = i := by
      have hmem := h.mem_iff i
      simpa using hmem
    have hle : j ≤ place j := h.order.le_apply
    rcases Nat.lt_or_eq_of_le (hj ▸ hle) with hlt | rfl
    · exact absurd ((ih j hlt).symm.trans hj) (Nat.ne_of_lt hlt)
    · exact hj

end Drops

theorem length_taken (lexer : Lexer) (requests : List Request) :
    (taken (lexer.transcript requests)).length = requests.count .next := by
  induction requests generalizing lexer with
  | nil => rfl
  | cons request requests ih =>
    cases request with
    | next =>
      rw [List.count_cons_self, ← ih lexer.next.2]
      rfl
    | peek ahead =>
      rw [List.count_cons_of_ne (by simp), ← ih (lexer.peek ahead).2]
      rfl

/-- A run in which no look ahead fails takes the upcoming answers. -/
theorem taken_of_lost_nil {lexer : Lexer} {requests : List Request}
    (h : lost (lexer.transcript requests) = []) :
    taken (lexer.transcript requests) = (List.range (requests.count .next)).map lexer.upcoming := by
  obtain ⟨place, dropped, hdrops⟩ := exists_drops lexer requests
  obtain rfl : dropped = [] := List.map_eq_nil_iff.1 (hdrops.lost.symm.trans h)
  have hlength := length_taken lexer requests
  refine List.ext_getElem (by simp [hlength]) fun i hi hi' => ?_
  rw [List.getElem_map, List.getElem_range,
    hdrops.taken i _ (List.getElem?_eq_getElem hi), hdrops.place_eq]

/-- A run without looks ahead loses nothing. -/
theorem lost_of_forall_next {lexer : Lexer} {requests : List Request}
    (h : ∀ request ∈ requests, request = .next) : lost (lexer.transcript requests) = [] := by
  induction requests generalizing lexer with
  | nil => rfl
  | cons request requests ih =>
    obtain ⟨rfl, hrest⟩ := List.forall_mem_cons.1 h
    exact ih hrest

theorem after_concat (lexer : Lexer) (before : List Request) (request : Request) :
    lexer.after (before ++ [request]) = ((lexer.after before).ask request).2 :=
  List.foldl_append

/-- A token that has been seen ahead is taken in its place, whatever is asked for behind. -/
theorem taken_of_peek {lexer : Lexer} {ahead : Nat} {t : Token} {requests : List Request}
    {answer : Answer} (hpeek : (lexer.peek ahead).1 = .token t)
    (h : (taken ((lexer.peek ahead).2.transcript requests))[ahead]? = some answer) :
    answer = .token t := by
  obtain ⟨place, dropped, hdrops⟩ := exists_drops (lexer.peek ahead).2 requests
  have htaken := hdrops.taken ahead answer h
  rcases peek_cases lexer ahead with
    ⟨t', lexer', hrun, hseen, hqueued, -, hkept⟩ | ⟨k, lexer', hrun, hnone, -⟩
  · rw [hrun] at hpeek hdrops htaken
    rw [htaken, hdrops.queued ahead hqueued, hkept, hseen]
    exact hpeek
  · rw [hrun] at hpeek
    rw [show lexer.upcoming k = .token t from hpeek] at hnone
    cases hnone

/-- **Looking ahead changes what is read only by failing.**  A run takes the answers of plain
reading in their order, without those that failed looks ahead have been given.  If none
fails, it takes what is taken without any of them.  A token that has been seen ahead is
taken in its place in any case. -/
theorem transcript_of_lookahead (lexer : Lexer) (requests : List Request) :
    (∃ place dropped, Drops lexer (lexer.transcript requests) place dropped) ∧
    (lost (lexer.transcript requests) = [] →
      taken (lexer.transcript requests) =
        taken (lexer.transcript (requests.filter fun request => request = .next))) ∧
    ∀ before ahead behind t, requests = before ++ .peek ahead :: behind →
      ((lexer.after before).peek ahead).1 = .token t →
      ∀ answer, (taken ((lexer.after (before ++ [.peek ahead])).transcript behind))[ahead]? =
        some answer → answer = .token t := by
  refine ⟨exists_drops lexer requests, fun hnone => ?_,
    fun before ahead behind t _ hpeek answer h => ?_⟩
  · have hplain : lost (lexer.transcript (requests.filter fun request => request = .next)) = [] :=
      lost_of_forall_next fun request hrequest => by simpa using (List.mem_filter.1 hrequest).2
    rw [taken_of_lost_nil hnone, taken_of_lost_nil hplain, List.count_filter (by simp)]
  · rw [after_concat] at h
    exact taken_of_peek hpeek h

/-- A token is seen ahead and taken in its place. -/
theorem transcript_of_two_names :
    lost ((ofText "a b").transcript [.peek 1, .next, .next]) = [] ∧
      taken ((ofText "a b").transcript [.peek 1, .next, .next]) =
        taken ((ofText "a b").transcript [.next, .next]) := by
  have hnone : lost ((ofText "a b").transcript [.peek 1, .next, .next]) = [] := by decide +kernel
  exact ⟨hnone, (transcript_of_lookahead (ofText "a b") [.peek 1, .next, .next]).2.1 hnone⟩

/-- A look ahead that fails takes the error with it. -/
example : (ofText "a \x22x").transcript [.peek 1, .next, .next] =
    [(.peek 1, .error ⟨.unfinishedString, ⟨1, 3⟩⟩), (.next, .token ⟨.name, "a", ⟨1, 1⟩⟩),
      (.next, .token (.atEnd ⟨1, 5⟩))] := by
  decide +kernel

end Lexer

end ScriptEngine
