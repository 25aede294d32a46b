import Pot.Reduce

/-! The vector of elementwise_reduce as memory has it. An element of a std::vector<R> is a word of
its own, but a std::vector<bool> has several elements in a word, and a block then writes its own by
loading the word and storing it with that element changed. -/
namespace Pot.ReducePacked
open Transition Reduce

variable {T R : Type}

structure State (R : Type) where
  next : Nat → Int
  /-- the vector when a task loaded the word that it writes to -/
  loaded : Nat → Option (Nat → R)
  partials : Nat → R

/-- The vector after partial[block_idx] = sum, from a word that was loaded before. -/
def store (per_word block_idx : Nat) (sum : R) (word partials : Nat → R) : Nat → R := fun j =>
  if j / per_word = block_idx / per_word then Function.update word block_idx sum j else partials j

/-- The next access of a task of parfor: for each of its blocks a load and a store. -/
def step (tasks : Loops.Family) (per_word : Nat) (sum : Nat → R) (s : State R) (k : Nat) :
    Option (State R) :=
  if k < tasks.loops ∧ s.next k < tasks.stop k then
    let block_idx := (s.next k).toNat
    match s.loaded k with
    | none => some { s with loaded := Function.update s.loaded k (some s.partials) }
    | some word => some {
        next := Function.update s.next k (s.next k + 1)
        loaded := Function.update s.loaded k none
        partials := store per_word block_idx (sum block_idx) word s.partials }
  else none

def system (tasks : Loops.Family) (per_word : Nat) (identity : R) (sum : Nat → R) :
    System (State R) Nat :=
  ⟨fun s => s = ⟨tasks.start, fun _ => none, fun _ => identity⟩, step tasks per_word sum⟩

/-- What elementwise_reduce can return, with `per_word` elements of the vector in a word. -/
def Returns (per_word : Nat) (c : Call T R) (result : R) : Prop :=
  if c.n = 0 then result = c.identity
  else
    (parfor c.block_count c.thread_count).Divides ∧
      let sys := system (parfor c.block_count c.thread_count).tasks per_word c.identity c.sum
      ∃ s, Reached sys s ∧ Terminal sys s ∧
        result = ((List.range c.block_count).map s.partials).foldl c.reduce_op c.identity

/-- Each block that does not come out as the identity has a word to itself, or what it comes out as
does not cancel and in some word no block comes out as the identity. -/
def Kept (per_word : Nat) (c : Call T R) : Prop :=
  (∀ block < c.block_count, c.sum block ≠ c.identity →
    ∀ j < c.block_count, j / per_word = block / per_word → j = block) ∨
  ∃ block < c.block_count, c.reduce_op (c.sum block) (c.sum block) ≠ c.identity ∧
    ∀ j < c.block_count, j / per_word = block / per_word → c.sum j ≠ c.identity

/-- As many chunks as threads, of one block each. -/
def blocks (n : Nat) : Loops.Family where
  loops := n
  start k := k
  stop k := min ((k : Int) + 1) n

theorem tasks_eq {n : Nat} (some : 1 ≤ n) : (parfor n n).tasks = blocks n := by
  have size : (parfor n n).chunk_size = 1 := by
    have one : ((n : Int) - 0).tdiv n = 1 := by
      rw [Int.sub_zero, Int.tdiv_self (by omega)]
    simp only [Parfor.Call.chunk_size, WhenAll.chunkSize, Parfor.Call.numIterations, parfor, one]
    rfl
  have chunks : (parfor n n).numChunks = n := by
    have ordered : (parfor n n).from_ < (parfor n n).to_ := by
      simp only [parfor]
      omega
    have mode : (parfor n n).static_chunk_size ≠ 0 := Int.neg_ne_zero.mpr one_ne_zero
    obtain ⟨-, whole, short⟩ := Parfor.numChunks_rounded ordered mode
    rw [size] at whole short
    have all : (parfor n n).numIterations = n := Int.sub_zero n
    omega
  have start : (parfor n n).chunkStart = fun k : Nat => (k : Int) := by
    funext k
    rw [Parfor.Call.chunkStart, size, Int.mul_one]
    exact Int.zero_add _
  have stop : (parfor n n).chunkEnd = fun k : Nat => min ((k : Int) + 1) n := by
    funext k
    rw [Parfor.Call.chunkEnd, start, size]
    rfl
  rw [Parfor.Call.tasks, chunks, start, stop, Int.toNat_natCast]
  rfl

section Runs

variable {n per_word : Nat} {identity : R} {sum : Nat → R}

/-- The elements are the identity or written, also in the words that have been loaded, and a word
that has been written has kept what some block wrote. -/
structure Inv (n per_word : Nat) (identity : R) (sum : Nat → R) (s : State R) : Prop where
  place : ∀ k < n, s.next k = k ∨ s.next k = k + 1
  partials : ∀ j, s.partials j = identity ∨ s.partials j = sum j
  loaded : ∀ k word, s.loaded k = some word → ∀ j, word j = identity ∨ word j = sum j
  kept : ∀ k < n, s.next k = k + 1 →
    ∃ j < n, j / per_word = k / per_word ∧ s.partials j = sum j

theorem initial_inv :
    Inv n per_word identity sum ⟨(blocks n).start, fun _ => none, fun _ => identity⟩ where
  place _ _ := .inl rfl
  partials _ := .inl rfl
  loaded _ _ same := by cases same
  kept k _ same := by
    have same : (k : Int) = k + 1 := same
    omega

theorem store_word {block_idx j : Nat} {v : R} {word partials : Nat → R}
    (here : j / per_word = block_idx / per_word) :
    store per_word block_idx v word partials j = Function.update word block_idx v j :=
  if_pos here

theorem store_away {block_idx j : Nat} {v : R} {word partials : Nat → R}
    (away : j / per_word ≠ block_idx / per_word) :
    store per_word block_idx v word partials j = partials j :=
  if_neg away

theorem step_inv {s t : State R} {k : Nat} (h : Inv n per_word identity sum s)
    (taken : step (blocks n) per_word sum s k = some t) : Inv n per_word identity sum t := by
  simp only [step] at taken
  split at taken
  · rename_i more
    obtain ⟨inside, below⟩ := more
    have inside : k < n := inside
    have below : s.next k < min ((k : Int) + 1) n := below
    have here : s.next k = k := (h.place k inside).resolve_right (by omega)
    cases at_word : s.loaded k with
    | none =>
      rw [at_word] at taken
      cases taken
      refine ⟨h.place, h.partials, fun i word loaded => ?_, h.kept⟩
      simp only [Function.update_apply] at loaded
      split at loaded
      · cases loaded
        exact h.partials
      · exact h.loaded i word loaded
    | some word =>
      rw [at_word] at taken
      cases taken
      have own : (s.next k).toNat = k := by omega
      rw [own, here]
      have written : ∀ j, store per_word k (sum k) word s.partials j = identity ∨
          store per_word k (sum k) word s.partials j = sum j := by
        intro j
        by_cases same : j / per_word = k / per_word
        · rw [store_word same, Function.update_apply]
          split
          · rename_i own
            exact .inr (own ▸ rfl)
          · exact h.loaded k word at_word j
        · rw [store_away same]
          exact h.partials j
      refine ⟨fun i less => ?_, written, fun i w loaded => ?_, fun i less past => ?_⟩
      · simp only [Function.update_apply]
        split
        · rename_i same
          exact .inr (same ▸ rfl)
        · exact h.place i less
      · simp only [Function.update_apply] at loaded
        split at loaded
        · cases loaded
        · exact h.loaded i w loaded
      · by_cases same : i / per_word = k / per_word
        · refine ⟨k, inside, same.symm, ?_⟩
          exact (store_word rfl).trans (Function.update_self ..)
        · have other : i ≠ k := fun own => same (own ▸ rfl)
          simp only [Function.update_of_ne other] at past
          obtain ⟨j, within, word', kept⟩ := h.kept i less past
          refine ⟨j, within, word', ?_⟩
          exact (store_away (word'.symm ▸ same)).trans kept
  · cases taken

theorem reached_inv {s : State R} (reached : Reached (system (blocks n) per_word identity sum) s) :
    Inv n per_word identity sum s := by
  refine Reached.invariant (I := Inv n per_word identity sum) (fun s first => ?_)
    (fun _ _ _ before taken => step_inv before taken) reached
  cases first
  exact initial_inv

theorem ended_kept {s : State R} (reached : Reached (system (blocks n) per_word identity sum) s)
    (ended : Terminal (system (blocks n) per_word identity sum) s) {k : Nat} (inside : k < n) :
    ∃ j < n, j / per_word = k / per_word ∧ s.partials j = sum j := by
  have h := reached_inv reached
  refine h.kept k inside ((h.place k inside).resolve_left fun here => ?_)
  have stuck : step (blocks n) per_word sum s k = none := ended k
  have below : s.next k < (blocks n).stop k := by
    simp only [blocks]
    omega
  simp only [step, if_pos (And.intro (show k < (blocks n).loops from inside) below)] at stuck
  cases at_word : s.loaded k with
  | none => rw [at_word] at stuck; cases stuck
  | some word => rw [at_word] at stuck; cases stuck

/-- A state in which the tasks of `done` have ended. -/
def place (done : List Nat) (loaded : Nat → Option (Nat → R)) (partials : Nat → R) : State R where
  next k := if k ∈ done then (k : Int) + 1 else k
  loaded := loaded
  partials := partials

variable {done : List Nat} {loaded : Nat → Option (Nat → R)} {partials : Nat → R}

theorem place_terminal (all : ∀ k < n, k ∈ done) :
    Terminal (system (blocks n) per_word identity sum) (place done loaded partials) := by
  intro k
  refine if_neg fun ⟨inside, below⟩ => ?_
  have below : (if k ∈ done then (k : Int) + 1 else k) < min ((k : Int) + 1) n := below
  rw [if_pos (all k inside)] at below
  omega

theorem place_load (per_word : Nat) (sum : Nat → R) (loaded : Nat → Option (Nat → R))
    (partials : Nat → R) {k : Nat} (inside : k < n) (fresh : k ∉ done)
    (unloaded : loaded k = none) :
    step (blocks n) per_word sum (place done loaded partials) k =
      some (place done (Function.update loaded k (some partials)) partials) := by
  have below : (place done loaded partials).next k < (blocks n).stop k := by
    simp only [place, blocks, if_neg fresh]
    omega
  rw [step, if_pos ⟨inside, below⟩]
  simp only [place, unloaded]

theorem place_store (per_word : Nat) (sum : Nat → R) (partials : Nat → R) {k : Nat}
    {word : Nat → R} (inside : k < n) (fresh : k ∉ done)
    (at_word : loaded k = some word) :
    step (blocks n) per_word sum (place done loaded partials) k =
      some (place (k :: done) (Function.update loaded k none)
        (store per_word k (sum k) word partials)) := by
  have here : (place done loaded partials).next k = k := if_neg fresh
  have below : (place done loaded partials).next k < (blocks n).stop k := by
    rw [here]
    simp only [blocks]
    omega
  have next : Function.update (place done loaded partials).next k ((k : Int) + 1) =
      (place (k :: done) loaded partials).next := by
    funext i
    by_cases same : i = k
    · rw [same, Function.update_self]
      exact (if_pos List.mem_cons_self).symm
    · rw [Function.update_of_ne same]
      simp only [place, List.mem_cons, same, false_or]
  rw [step, if_pos ⟨inside, below⟩, here, Int.toNat_natCast]
  simp only [place, at_word] at next ⊢
  rw [next]

theorem write_alone (per_word : Nat) (identity : R) (sum : Nat → R) (done : List Nat)
    (partials : Nat → R) (l : List Nat) (inside : ∀ k ∈ l, k < n) (distinct : l.Nodup)
    (fresh : ∀ k ∈ l, k ∉ done) :
    ∃ as, replay (system (blocks n) per_word identity sum)
      (place done (fun _ => none) partials) as =
        some (place (l.reverse ++ done) (fun _ => none)
          fun i => if i ∈ l then sum i else partials i) := by
  induction l generalizing done partials with
  | nil => exact ⟨[], by simp [replay]⟩
  | cons k l ih =>
    obtain ⟨away, distinct⟩ := List.nodup_cons.mp distinct
    have here := inside k List.mem_cons_self
    have new := fresh k List.mem_cons_self
    have first := place_load per_word sum (fun _ => none) partials here new rfl
    have second := place_store per_word sum partials here new
      (Function.update_self k (some partials) fun _ => none)
    have unloaded : Function.update (Function.update (fun _ => none) k (some partials)) k none =
        (fun _ => none : Nat → Option (Nat → R)) := by
      rw [Function.update_idem]
      exact Function.update_eq_self k fun _ => none
    have written : store per_word k (sum k) partials partials =
        Function.update partials k (sum k) := by
      funext i
      by_cases same : i / per_word = k / per_word
      · exact store_word same
      · rw [store_away same, Function.update_of_ne (mt (congrArg (· / per_word)) same)]
    rw [unloaded, written] at second
    obtain ⟨as, run⟩ := ih (k :: done) (Function.update partials k (sum k))
      (fun i mem => inside i (List.mem_cons_of_mem k mem)) distinct fun i mem old => by
        rcases List.mem_cons.mp old with rfl | old
        · exact away mem
        · exact fresh i (List.mem_cons_of_mem k mem) old
    refine ⟨k :: k :: as, (replay_cons first _).trans ((replay_cons second _).trans (run.trans ?_))⟩
    have final : (fun i => if i ∈ l then sum i else Function.update partials k (sum k) i) =
        fun i => if i ∈ k :: l then sum i else partials i := by
      funext i
      by_cases same : i = k
      · subst same
        rw [if_neg away, Function.update_self, if_pos List.mem_cons_self]
      · simp only [List.mem_cons, same, false_or, Function.update_of_ne same]
    rw [final, List.reverse_cons, List.append_assoc, List.singleton_append]

/-- Block `k` writes its element between the load and the store of block `j`. -/
theorem store_between (per_word : Nat) (identity : R) (sum : Nat → R) (partials : Nat → R)
    {j k : Nat} (less : j < n) (inside : k < n) (other : j ≠ k) (fresh_j : j ∉ done)
    (fresh_k : k ∉ done) :
    ∃ loaded, replay (system (blocks n) per_word identity sum)
        (place done (fun _ => none) partials) [j, k, k, j] =
      some (place (j :: k :: done) loaded
        (store per_word j (sum j) partials (store per_word k (sum k) partials partials))) := by
  have load_j := place_load per_word sum (fun _ => none) partials less fresh_j rfl
  have load_k := place_load per_word sum (Function.update (fun _ => none) j (some partials))
    partials inside fresh_k (Function.update_of_ne other.symm ..)
  have store_k := place_store per_word sum partials inside fresh_k
    (Function.update_self k (some partials) (Function.update (fun _ => none) j (some partials)))
  have held : Function.update (Function.update (Function.update (fun _ => none) j (some partials)) k
      (some partials)) k none j = some partials := by
    rw [Function.update_of_ne other, Function.update_of_ne other, Function.update_self]
  have store_j := place_store per_word sum (store per_word k (sum k) partials partials) less
    (fun mem => (List.mem_cons.mp mem).elim other fresh_j) held
  exact ⟨_, (replay_cons load_j _).trans ((replay_cons load_k _).trans
    ((replay_cons store_k _).trans (replay_cons store_j [])))⟩

theorem loses_one (identity : R) (sum : Nat → R) {j k : Nat} (less : j < n) (inside : k < n)
    (other : j ≠ k) (same : j / per_word = k / per_word) :
    ∃ as s, replay (system (blocks n) per_word identity sum)
        ⟨(blocks n).start, fun _ => none, fun _ => identity⟩ as = some s ∧
      Terminal (system (blocks n) per_word identity sum) s ∧
      ∀ i < n, s.partials i = if i = k then identity else sum i := by
  let rest := (List.range n).filter fun i => i ≠ j ∧ i ≠ k
  have mem_rest : ∀ i, i ∈ rest ↔ i < n ∧ i ≠ j ∧ i ≠ k := by
    intro i
    simp [rest]
  let before : Nat → R := fun i => if i ∈ rest then sum i else identity
  obtain ⟨as, run⟩ := write_alone per_word identity sum [] (fun _ => identity) rest
    (fun i mem => ((mem_rest i).mp mem).1) (List.nodup_range.filter _) fun i _ => List.not_mem_nil
  rw [List.append_nil] at run
  have away : ∀ i, i = j ∨ i = k → i ∉ rest.reverse := by
    rintro i here mem
    have out := ((mem_rest i).mp (List.mem_reverse.mp mem)).2
    exact here.elim out.1 out.2
  obtain ⟨loaded, overlap⟩ := store_between per_word identity sum before less inside other
    (away j (.inl rfl)) (away k (.inr rfl))
  refine ⟨as ++ [j, k, k, j], _, (replay_append as _ run).trans overlap,
    place_terminal fun i within => ?_, fun i within => ?_⟩
  · by_cases last : i = j
    · exact last ▸ List.mem_cons_self
    · by_cases lost : i = k
      · exact lost ▸ List.mem_cons_of_mem j List.mem_cons_self
      · refine List.mem_cons_of_mem j (List.mem_cons_of_mem k (List.mem_reverse.mpr ?_))
        exact (mem_rest i).mpr ⟨within, last, lost⟩
  · change store per_word j (sum j) before (store per_word k (sum k) before before) i = _
    have elsewhere : i ≠ j → i ≠ k → before i = sum i := fun last lost =>
      if_pos ((mem_rest i).mpr ⟨within, last, lost⟩)
    have lost : before k = identity := if_neg fun mem => ((mem_rest k).mp mem).2.2 rfl
    by_cases here : i / per_word = j / per_word
    · rw [store_word here, Function.update_apply]
      split
      · rename_i own
        rw [own, if_neg other]
      · rename_i last
        split
        · rename_i own
          rw [own, lost]
        · rename_i kept
          exact elsewhere last kept
    · have apart : i / per_word ≠ k / per_word := fun in_word => here (in_word.trans same.symm)
      have lost : i ≠ k := mt (congrArg (· / per_word)) apart
      rw [store_away here, store_away apart, if_neg lost]
      exact elsewhere (mt (congrArg (· / per_word)) here) lost

/-- All loads come before all stores. -/
theorem load_all (per_word : Nat) (identity : R) (sum : Nat → R) (done : List Nat)
    (loaded : Nat → Option (Nat → R)) (partials : Nat → R) (l : List Nat)
    (inside : ∀ k ∈ l, k < n) (distinct : l.Nodup) (fresh : ∀ k ∈ l, k ∉ done)
    (unloaded : ∀ k ∈ l, loaded k = none) :
    ∃ as, replay (system (blocks n) per_word identity sum) (place done loaded partials) as =
      some (place done (fun i => if i ∈ l then some partials else loaded i) partials) := by
  induction l generalizing loaded with
  | nil => exact ⟨[], by simp [replay]⟩
  | cons k l ih =>
    obtain ⟨away, distinct⟩ := List.nodup_cons.mp distinct
    have first := place_load per_word sum loaded partials (inside k List.mem_cons_self)
      (fresh k List.mem_cons_self) (unloaded k List.mem_cons_self)
    obtain ⟨as, run⟩ := ih (Function.update loaded k (some partials))
      (fun i mem => inside i (List.mem_cons_of_mem k mem)) distinct
      (fun i mem => fresh i (List.mem_cons_of_mem k mem)) fun i mem => by
        rw [Function.update_of_ne (ne_of_mem_of_not_mem mem away)]
        exact unloaded i (List.mem_cons_of_mem k mem)
    refine ⟨k :: as, (replay_cons first _).trans (run.trans ?_)⟩
    have final : (fun i => if i ∈ l then some partials
        else Function.update loaded k (some partials) i) =
        fun i => if i ∈ k :: l then some partials else loaded i := by
      funext i
      by_cases same : i = k
      · rw [same, if_neg away, Function.update_self, if_pos List.mem_cons_self]
      · simp only [List.mem_cons, same, false_or, Function.update_of_ne same]
    rw [final]

/-- A block whose element is the identity puts back the identities it has loaded. -/
theorem store_all (per_word : Nat) (identity : R) (sum : Nat → R) (done : List Nat)
    (loaded : Nat → Option (Nat → R)) (partials : Nat → R) (l : List Nat)
    (inside : ∀ k ∈ l, k < n) (distinct : l.Nodup) (fresh : ∀ k ∈ l, k ∉ done)
    (words : ∀ k ∈ l, loaded k = some fun _ => identity) :
    ∃ as loaded' partials', replay (system (blocks n) per_word identity sum)
        (place done loaded partials) as = some (place (l.reverse ++ done) loaded' partials') ∧
      (∀ k, k ∉ l → loaded' k = loaded k) ∧
      ((∀ k ∈ l, sum k = identity) → ∀ i,
        (partials i = identity ∨ ∃ k ∈ l, k / per_word = i / per_word) →
        partials' i = identity) := by
  induction l generalizing done loaded partials with
  | nil =>
    refine ⟨[], loaded, partials, rfl, fun _ _ => rfl, fun _ i here => ?_⟩
    exact here.resolve_right fun ⟨k, mem, _⟩ => List.not_mem_nil mem
  | cons k l ih =>
    obtain ⟨away, distinct⟩ := List.nodup_cons.mp distinct
    have first := place_store per_word sum partials (inside k List.mem_cons_self)
      (fresh k List.mem_cons_self) (words k List.mem_cons_self)
    obtain ⟨as, loaded', partials', run, others, back⟩ := ih (k :: done)
      (Function.update loaded k none) (store per_word k (sum k) (fun _ => identity) partials)
      (fun i mem => inside i (List.mem_cons_of_mem k mem)) distinct (fun i mem old => by
        rcases List.mem_cons.mp old with rfl | old
        · exact away mem
        · exact fresh i (List.mem_cons_of_mem k mem) old) fun i mem => by
        rw [Function.update_of_ne (ne_of_mem_of_not_mem mem away)]
        exact words i (List.mem_cons_of_mem k mem)
    refine ⟨k :: as, loaded', partials', (replay_cons first _).trans (run.trans ?_),
      fun i out => ?_, fun none i here =>
        back (fun j mem => none j (List.mem_cons_of_mem k mem)) i ?_⟩
    · rw [List.reverse_cons, List.append_assoc, List.singleton_append]
    · rw [others i fun mem => out (List.mem_cons_of_mem k mem),
        Function.update_of_ne (List.ne_of_not_mem_cons out)]
    · by_cases word : i / per_word = k / per_word
      · refine .inl ?_
        rw [store_word word, none k List.mem_cons_self]
        exact congrFun (Function.update_eq_self k fun _ => identity) i
      · rw [store_away word]
        refine here.imp id fun ⟨j, mem, in_word⟩ => ?_
        rcases List.mem_cons.mp mem with rfl | mem
        · exact absurd in_word.symm word
        · exact ⟨j, mem, in_word⟩

/-- Where each word has a block that comes out as the identity, all others can be lost. -/
theorem loses_all (per_word : Nat) (identity : R) (sum : Nat → R)
    (spare : ∀ k < n, ∃ j < n, j / per_word = k / per_word ∧ sum j = identity) :
    ∃ as s, replay (system (blocks n) per_word identity sum)
        ⟨(blocks n).start, fun _ => none, fun _ => identity⟩ as = some s ∧
      Terminal (system (blocks n) per_word identity sum) s ∧
      ∀ i < n, s.partials i = identity := by
  classical
  let first := (List.range n).filter fun k => sum k ≠ identity
  let last := (List.range n).filter fun k => sum k = identity
  have mem_first : ∀ k, k ∈ first ↔ k < n ∧ sum k ≠ identity := fun k => by simp [first]
  have mem_last : ∀ k, k ∈ last ↔ k < n ∧ sum k = identity := fun k => by simp [last]
  obtain ⟨as, load⟩ := load_all per_word identity sum [] (fun _ => none) (fun _ => identity)
    (List.range n)
    (fun k mem => List.mem_range.mp mem) List.nodup_range (fun k _ => List.not_mem_nil)
    fun _ _ => rfl
  have words : ∀ k < n, (if k ∈ List.range n then some fun _ : Nat => identity else none) =
      some fun _ => identity := fun k less => if_pos (List.mem_range.mpr less)
  obtain ⟨bs, loaded, partials, write, others, -⟩ := store_all per_word identity sum []
    (fun i => if i ∈ List.range n then some fun _ : Nat => identity else none) (fun _ => identity)
    first
    (fun k mem => ((mem_first k).mp mem).1) (List.nodup_range.filter _)
    (fun k _ => List.not_mem_nil) fun k mem => words k ((mem_first k).mp mem).1
  have apart : ∀ k ∈ last, k ∉ first := fun k mem here =>
    ((mem_first k).mp here).2 ((mem_last k).mp mem).2
  obtain ⟨cs, loaded', partials', put_back, -, back⟩ := store_all per_word identity sum
    (first.reverse ++ []) loaded partials last (fun k mem => ((mem_last k).mp mem).1)
    (List.nodup_range.filter _)
    (fun k mem old => by
      rw [List.append_nil, List.mem_reverse] at old
      exact apart k mem old)
    fun k mem => (others k (apart k mem)).trans (words k ((mem_last k).mp mem).1)
  refine ⟨as ++ (bs ++ cs), _, (replay_append as _ load).trans
    ((replay_append bs cs write).trans put_back), place_terminal fun k less => ?_,
    fun i less => back (fun k mem => ((mem_last k).mp mem).2) i (.inr ?_)⟩
  · rw [List.append_nil, List.mem_append, List.mem_reverse, List.mem_reverse]
    by_cases none : sum k = identity
    · exact .inl ((mem_last k).mpr ⟨less, none⟩)
    · exact .inr ((mem_first k).mpr ⟨less, none⟩)
  · obtain ⟨j, within, word, none⟩ := spare i less
    exact ⟨j, (mem_last j).mpr ⟨within, none⟩, word⟩

theorem runs_end (n per_word : Nat) (identity : R) (sum : Nat → R) :
    ∃ s, Reached (system (blocks n) per_word identity sum) s ∧
      Terminal (system (blocks n) per_word identity sum) s := by
  obtain ⟨as, run⟩ := write_alone per_word identity sum [] (fun _ => identity) (List.range n)
    (fun k mem => List.mem_range.mp mem) List.nodup_range fun k _ => List.not_mem_nil
  refine ⟨_, Reached.replay (.start rfl) as run, place_terminal fun k less => ?_⟩
  rw [List.append_nil, List.mem_reverse]
  exact List.mem_range.mpr less

end Runs

variable {c : Call T R} {per_word : Nat}

theorem returns_runs (threads : 1 ≤ c.thread_count) (some : c.n ≠ 0) (result : R) :
    Returns per_word c result ↔
      ∃ s, Reached (system (blocks c.block_count) per_word c.identity c.sum) s ∧
        Terminal (system (blocks c.block_count) per_word c.identity c.sum) s ∧
        result = ((List.range c.block_count).map s.partials).foldl c.reduce_op c.identity := by
  have count : c.thread_count = c.block_count := (Nat.max_eq_right threads).symm
  have divides : (parfor c.block_count c.block_count).Divides :=
    Parfor.divides (block_count_pos c) (Int.neg_ne_zero.mpr one_ne_zero)
  rw [Returns, if_neg some, count, tasks_eq (block_count_pos c)]
  exact and_iff_right divides

theorem kept_none (none : c.n = 0) : Kept per_word c := by
  refine .inl fun block _ other => absurd ?_ other
  have few : c.block_size = 0 := by
    have := block_count_pos c
    rw [Call.block_size, none]
    exact Nat.div_eq_of_lt (by omega)
  simp [Call.sum, Call.indices, few, none]

section Folds

variable [Std.Associative c.reduce_op] [Std.LawfulIdentity c.reduce_op c.identity]

/-- What stays of the blocks folds to what the blocks fold to. -/
theorem ended_fold (flags : per_word ≠ 1 → ∀ x y : R, x ≠ c.identity → y ≠ c.identity → x = y)
    (kept : Kept per_word c) {s : State R}
    (reached : Reached (system (blocks c.block_count) per_word c.identity c.sum) s)
    (ended : Terminal (system (blocks c.block_count) per_word c.identity c.sum) s) :
    ((List.range c.block_count).map s.partials).foldl c.reduce_op c.identity = c.sequential := by
  rw [← fold_sums c]
  have written : (∀ block < c.block_count, c.sum block ≠ c.identity →
      ∀ j < c.block_count, j / per_word = block / per_word → j = block) →
      (List.range c.block_count).map s.partials = (List.range c.block_count).map c.sum := by
    intro alone
    refine List.map_congr_left fun k mem => ?_
    have less := List.mem_range.mp mem
    by_cases none : c.sum k = c.identity
    · exact ((reached_inv reached).partials k).elim (·.trans none.symm) id
    · obtain ⟨j, within, word, kept⟩ := ended_kept reached ended less
      exact alone k less none j within word ▸ kept
  by_cases apart : per_word = 1
  · rw [written fun block _ _ j _ word => by simpa only [apart, Nat.div_one] using word]
  · rcases kept with alone | ⟨block, less, stays, whole⟩
    · rw [written alone]
    · -- neither fold is the identity, and there is only one other value
      have two := flags apart
      have own := whole block less rfl
      have same : ∀ x, x ≠ c.identity → c.reduce_op x x ≠ c.identity := fun x other =>
        two x _ other own ▸ stays
      refine two _ _ ((Folds.fold_ne two same).mpr ?_) ((Folds.fold_ne two same).mpr ?_)
      · obtain ⟨j, within, word, kept⟩ := ended_kept reached ended less
        exact ⟨s.partials j, List.mem_map_of_mem (List.mem_range.mpr within),
          kept ▸ whole j within word⟩
      · exact ⟨c.sum block, List.mem_map_of_mem (List.mem_range.mpr less), own⟩

/-- Otherwise a run folds to something else. -/
theorem lost_fold (two : ∀ x y : R, x ≠ c.identity → y ≠ c.identity → x = y)
    (lost : ¬ Kept per_word c) :
    ∃ s, Reached (system (blocks c.block_count) per_word c.identity c.sum) s ∧
      Terminal (system (blocks c.block_count) per_word c.identity c.sum) s ∧
      ((List.range c.block_count).map s.partials).foldl c.reduce_op c.identity ≠
        c.sequential := by
  simp only [Kept, not_or, not_forall, not_exists, not_and, exists_prop, not_not] at lost
  obtain ⟨⟨block, less, own, j, within, word, other⟩, spare⟩ := lost
  rw [← fold_sums c]
  by_cases cancels : c.reduce_op (c.sum block) (c.sum block) = c.identity
  · obtain ⟨as, s, run, ended, partials⟩ := loses_one c.identity c.sum
      within less other word
    refine ⟨s, Reached.replay (.start rfl) as run, ended, ?_⟩
    have split : List.range c.block_count = List.range block ++ block ::
        List.range' (block + 1) (c.block_count - (block + 1)) := by
      rw [List.range_eq_range', List.range_eq_range', ← List.range'_succ]
      have joined : List.range' 0 block ++ List.range' (0 + 1 * block)
          (c.block_count - (block + 1) + 1) =
            List.range' 0 (block + (c.block_count - (block + 1) + 1)) := List.range'_append
      rw [Nat.zero_add, Nat.one_mul] at joined
      rw [joined]
      congr 1
      omega
    have before : (List.range block).map s.partials = (List.range block).map c.sum := by
      refine List.map_congr_left fun i mem => ?_
      have := List.mem_range.mp mem
      rw [partials i (by omega), if_neg (by omega)]
    have after : (List.range' (block + 1) (c.block_count - (block + 1))).map s.partials =
        (List.range' (block + 1) (c.block_count - (block + 1))).map c.sum := by
      refine List.map_congr_left fun i mem => ?_
      have := List.mem_range'_1.mp mem
      rw [partials i (by omega), if_neg (by omega)]
    rw [split, List.map_append, List.map_append, List.map_cons, List.map_cons, before, after,
      partials block less, if_pos rfl]
    exact Folds.fold_lost two own cancels
  · have same : ∀ x, x ≠ c.identity → c.reduce_op x x ≠ c.identity := fun x differs =>
      two x _ differs own ▸ cancels
    obtain ⟨as, s, run, ended, partials⟩ := loses_all per_word c.identity
      c.sum fun k inside => by
        by_cases none : c.sum k = c.identity
        · exact ⟨k, inside, rfl, none⟩
        · obtain ⟨j, within, word, none⟩ := spare k inside (same _ none)
          exact ⟨j, within, word, none⟩
    refine ⟨s, Reached.replay (.start rfl) as run, ended, ?_⟩
    have all : ((List.range c.block_count).map s.partials).foldl c.reduce_op c.identity =
        c.identity := by
      refine Folds.fold_identities (f := c.reduce_op) fun v mem => ?_
      obtain ⟨i, inside, rfl⟩ := List.mem_map.mp mem
      exact partials i (List.mem_range.mp inside)
    rw [all]
    exact ((Folds.fold_ne two same).mpr ⟨c.sum block,
      List.mem_map_of_mem (List.mem_range.mpr less), own⟩).symm

theorem returns_kept (threads : 1 ≤ c.thread_count)
    (flags : per_word ≠ 1 → ∀ x y : R, x ≠ c.identity → y ≠ c.identity → x = y)
    (kept : Kept per_word c) (result : R) : Returns per_word c result ↔ result = c.sequential := by
  by_cases none : c.n = 0
  · rw [Returns, if_pos none, Call.sequential, none, List.range_zero, List.foldl_nil]
  · rw [returns_runs threads none]
    constructor
    · rintro ⟨s, reached, ended, rfl⟩
      exact ended_fold flags kept reached ended
    · rintro rfl
      obtain ⟨s, reached, ended⟩ := runs_end c.block_count per_word c.identity c.sum
      exact ⟨s, reached, ended, (ended_fold flags kept reached ended).symm⟩

end Folds

/-- elementwise_reduce is the sequential fold in every order of the blocks, and so for every number
of threads, exactly if it cannot lose a block: where it writes a std::vector<bool>, and only there,
several elements are in a word. -/
theorem returns_sequential_iff (c : Call T R) [Std.Associative c.reduce_op]
    [Std.LawfulIdentity c.reduce_op c.identity] (threads : 1 ≤ c.thread_count) {per_word : Nat}
    (flags : per_word ≠ 1 → ∀ x y : R, x ≠ c.identity → y ≠ c.identity → x = y) :
    ((∀ result, Returns per_word c result ↔ result = c.sequential) ↔ Kept per_word c) ∧
      ∀ thread_count, 1 ≤ thread_count → Kept per_word { c with thread_count } →
        ∀ result, Returns per_word { c with thread_count } result ↔ result = c.sequential := by
  refine ⟨⟨fun always => ?_, returns_kept threads flags⟩, fun thread_count others =>
    returns_kept (c := { c with thread_count }) others flags⟩
  by_contra lost
  have some : c.n ≠ 0 := fun none => lost (kept_none none)
  have apart : per_word ≠ 1 := by
    rintro rfl
    exact lost (.inl fun block _ _ j _ word => by simpa only [Nat.div_one] using word)
  obtain ⟨s, reached, ended, wrong⟩ := lost_fold (flags apart) lost
  exact wrong ((always _).mp ((returns_runs threads some _).mpr ⟨s, reached, ended, rfl⟩))

/-- The last element that is not 0: two to a block, and the third block is short. -/
def latest : Call Int Int :=
  ⟨fun i => [4, 7, 0, 9, 0].getD i 0, fun _ => 0, 5, (· + ·), fun x y => if y = 0 then x else y,
    0, 3⟩

instance : Std.Associative latest.reduce_op where
  assoc x y z := by
    simp only [latest]
    split <;> rfl

instance : Std.LawfulIdentity latest.reduce_op latest.identity where
  left_id x := by
    simp only [latest]
    split <;> simp_all
  right_id x := by simp only [latest, if_pos]

theorem returns_sequential_iff_latest : Returns 1 latest 9 ∧ ¬ Returns 1 latest 4 := by
  have kept : Kept 1 latest := .inl fun block _ _ j _ word => by
    simpa only [Nat.div_one] using word
  have always := (returns_sequential_iff latest (by decide) fun several => absurd rfl several).1.mpr
    kept
  exact ⟨(always 9).mpr rfl, fun other => absurd ((always 4).mp other) (by decide)⟩

/-- Is there a true element? The first of two is, and each has a block of its own. -/
def flags : Call Bool Bool := ⟨fun i => i == 0, fun _ => false, 2, (· || ·), (· || ·), false, 2⟩

/-- Both blocks load the word before either stores it, and the store of the second is the last. -/
theorem flag_lost : Returns 64 flags false ∧ flags.sequential = true := by
  obtain ⟨as, s, run, ended, partials⟩ := loses_all (n := 2) 64 false flags.sum
    fun k less => ⟨1, by decide, by omega, by decide⟩
  refine ⟨(returns_runs (by decide) (by decide) false).mpr
    ⟨s, Reached.replay (.start rfl) as run, ended, ?_⟩, by decide⟩
  have all : (List.range flags.block_count).map s.partials = [false, false] :=
    congrArg₂ (fun x y => [x, y]) (partials 0 (by decide)) (partials 1 (by decide))
  rw [all]
  rfl

end Pot.ReducePacked
