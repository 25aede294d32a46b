import Pot.Integral
import Pot.Parfor

/-! The chunk loop of algorithms/parfor.h as it is computed: IndexType is an integral type of 8 to
64 bits, the chunk arithmetic is done in int64_t, and thread_count() is a size_t. -/
namespace Pot.ParforWidth
open Transition Integral

/-- A call with from < to. The last field is max_size() of std::vector<task<void>>. -/
structure Call where
  ty : Kind
  static_chunk_size : Int
  from_ : Int
  to_ : Int
  thread_count : Nat
  max_size : Nat
  from_held : ty.Holds from_
  to_held : ty.Holds to_
  ordered : from_ < to_
  static_held : int64.Holds static_chunk_size
  mode : static_chunk_size ≠ 0
  threads : 1 ≤ thread_count
  threads_held : uint64.Holds thread_count

inductive Fault where
  | undefined
  | length_error
  deriving DecidableEq

def defined {α : Type} : Option α → Except Fault α
  | some a => .ok a
  | none => .error .undefined

def Call.numIterations (c : Call) : Option Int :=
  (c.ty.promoted.result (c.to_ - c.from_)).map int64.convert

def Call.chunk_size (c : Call) (numIterations : Int) : Option Int :=
  if c.static_chunk_size < 0 then
    (int64.quotient numIterations (int64.convert c.thread_count)).map (max 1)
  else some c.static_chunk_size

def numChunks (numIterations chunk_size : Int) : Option Int := do
  let sum ← int64.result (numIterations + chunk_size)
  let less ← int64.result (sum - 1)
  int64.quotient less chunk_size

def Call.chunkStart (c : Call) (chunk_size chunkIndex : Int) : Option Int := do
  let offset ← int64.result (chunkIndex * chunk_size)
  let sum ← c.ty.promoted.result (c.from_ + c.ty.convert offset)
  some (c.ty.convert sum)

def Call.chunkEnd (c : Call) (chunk_size chunkStart : Int) : Option Int := do
  let sum ← c.ty.promoted.result (chunkStart + c.ty.convert chunk_size)
  some (min (c.ty.convert sum) c.to_)

def Call.chunks (c : Call) (chunk_size : Int) : Nat → Option (List (Int × Int))
  | 0 => some []
  | chunkIndex + 1 => do
    let before ← c.chunks chunk_size chunkIndex
    let chunkStart ← c.chunkStart chunk_size chunkIndex
    let chunkEnd ← c.chunkEnd chunk_size chunkStart
    some (before ++ [(chunkStart, chunkEnd)])

def Call.tasks (c : Call) : Except Fault Loops.Family := do
  let numIterations ← defined c.numIterations
  let chunk_size ← defined (c.chunk_size numIterations)
  let numChunks ← defined (numChunks numIterations chunk_size)
  if c.max_size < uint64.convert numChunks then .error .length_error
  else return .ofBounds (← defined (c.chunks chunk_size numChunks.toNat))

/-- Nothing overflows, and func is called once for each index and for nothing else. -/
def Call.VisitsOnce (c : Call) : Prop :=
  ∃ tasks, c.tasks = .ok tasks ∧ ∀ s, Reached tasks.system s → Terminal tasks.system s →
    ∀ i, s.visited.count i = if c.from_ ≤ i ∧ i < c.to_ then 1 else 0

/-- The number of indices, the size of a chunk as documented, and the length of the last chunk. -/
def Call.length (c : Call) : Int := c.to_ - c.from_

def Call.size (c : Call) : Int :=
  if c.static_chunk_size < 0 then max 1 (c.length / c.thread_count) else c.static_chunk_size

def Call.tail (c : Call) : Int := (c.length - 1) % c.size + 1

/-- The size as IndexType has it. -/
def Call.narrowed (c : Call) : Int := c.size % c.ty.modulus

/-- The length fits int64_t and the type `to - from` is computed in, and stays so when rounded up;
the chunks fit the vector; and the last chunk, begun at `to - tail` and a whole narrowed chunk
long, reaches `to` without leaving IndexType. -/
structure Call.Fits (c : Call) : Prop where
  difference : c.length ≤ c.ty.promoted.max
  rounding : c.length + c.size ≤ int64.max
  chunks : (c.length + c.size - 1) / c.size ≤ c.max_size
  narrowed : c.narrowed ≤ c.ty.promoted.max
  reaches : c.tail ≤ c.narrowed
  stays : c.to_ - c.tail + c.narrowed ≤ c.ty.max

instance (c : Call) : Decidable c.Fits :=
  decidable_of_iff (c.length ≤ c.ty.promoted.max ∧ c.length + c.size ≤ int64.max ∧
    (c.length + c.size - 1) / c.size ≤ c.max_size ∧ c.narrowed ≤ c.ty.promoted.max ∧
    c.tail ≤ c.narrowed ∧ c.to_ - c.tail + c.narrowed ≤ c.ty.max)
    ⟨fun ⟨a, b, d, e, f, g⟩ => ⟨a, b, d, e, f, g⟩, fun ⟨a, b, d, e, f, g⟩ => ⟨a, b, d, e, f, g⟩⟩

variable {c : Call} {numIterations chunk_size : Int}

theorem length_pos (c : Call) : 0 < c.length := Int.sub_pos_of_lt c.ordered

theorem size_pos (c : Call) : 0 < c.size := by
  unfold Call.size
  have := c.mode
  split
  · exact lt_of_lt_of_le Int.one_pos (le_max_left ..)
  · omega

theorem int64_max : int64.max = 9223372036854775807 := by decide

theorem int64_min : int64.min = -9223372036854775808 := by decide

theorem int64_result (v : Int) : int64.result v = if int64.Holds v then some v else none :=
  Kind.result_signed rfl

theorem int64_holds {v : Int} (positive : 0 ≤ v) (fits : v ≤ int64.max) : int64.Holds v :=
  ⟨Int.le_trans int64.min_nonpos positive, fits⟩

/-- `to - from` overflows, in a signed type, or has its value. -/
theorem numIterations_eq (c : Call) : c.numIterations =
    if c.length ≤ c.ty.promoted.max then some (int64.convert c.length) else none := by
  have positive := length_pos c
  have lower := c.ty.promoted.min_nonpos
  rw [Call.numIterations, ← Call.length]
  split
  · rw [Kind.result_of_holds ⟨by omega, ‹_›⟩, Option.map_some]
  · rename_i long
    cases kind : c.ty.promoted.signed with
    | true => rw [Kind.result_signed kind, if_neg fun held => long held.2, Option.map_none]
    | false =>
      have same : c.ty.promoted = c.ty :=
        c.ty.promoted_cases.resolve_right fun wider => by
          rw [wider.1] at kind
          cases kind
      have low := c.from_held.1
      have high := c.to_held.2
      rw [same] at kind long
      rw [Kind.min, if_neg (by rw [kind]; decide)] at low
      unfold Call.length at long
      omega

/-- More threads than int64_t can count are negative there, and the share is 1 all the same. -/
theorem share (long : c.length ≤ int64.max) :
    ∃ q, int64.quotient c.length (int64.convert c.thread_count) = some q ∧
      max 1 q = max 1 (c.length / c.thread_count) := by
  have positive := length_pos c
  have threads := c.threads
  have threads_held : (c.thread_count : Int) ≤ uint64.max := c.threads_held.2
  have small := Int.ediv_le_self (c.thread_count : Int) (Int.le_of_lt positive)
  have least := Int.ediv_nonneg (Int.le_of_lt positive) (Int.natCast_nonneg c.thread_count)
  rcases lt_or_ge int64.max c.thread_count with wraps | fits
  · have bits : int64.modulus = uint64.max + 1 := by decide
    have negative : int64.convert c.thread_count = -(int64.modulus - c.thread_count) := by
      rw [Kind.convert_past wraps (by omega), Int.neg_sub]
    have fewer := Int.ediv_le_self (int64.modulus - c.thread_count) (Int.le_of_lt positive)
    have below := Int.ediv_nonneg (Int.le_of_lt positive)
      (by omega : 0 ≤ int64.modulus - c.thread_count)
    have none : c.length / (c.thread_count : Int) = 0 :=
      Int.ediv_eq_zero_of_lt (Int.le_of_lt positive) (by omega)
    have held : int64.Holds (-(c.length / (int64.modulus - c.thread_count))) := by
      rw [Kind.Holds, int64_min]
      rw [int64_max] at long ⊢
      omega
    refine ⟨-(c.length / (int64.modulus - c.thread_count)), ?_, ?_⟩
    · rw [negative, Kind.quotient, if_neg (by omega), Int.tdiv_neg,
        Int.tdiv_eq_ediv_of_nonneg (Int.le_of_lt positive), Kind.result_of_holds held]
    · rw [none, max_eq_left (by omega), max_eq_left (by omega)]
  · refine ⟨c.length / c.thread_count, ?_, rfl⟩
    rw [Kind.convert_of_holds (int64_holds (by omega) fits), Kind.quotient, if_neg (by omega),
      Int.tdiv_eq_ediv_of_nonneg (Int.le_of_lt positive),
      Kind.result_of_holds (int64_holds least (by omega))]

theorem chunk_size_eq (long : c.length ≤ int64.max) : c.chunk_size c.length = some c.size := by
  rw [Call.chunk_size, Call.size]
  split
  · obtain ⟨q, hq, same⟩ := share long
    rw [hq, Option.map_some, same]
  · rfl

theorem chunk_size_pos (size : c.chunk_size numIterations = some chunk_size) :
    0 < chunk_size := by
  have mode := c.mode
  unfold Call.chunk_size at size
  split at size
  · obtain ⟨q, -, rfl⟩ := Option.map_eq_some_iff.mp size
    exact lt_of_lt_of_le Int.one_pos (le_max_left ..)
  · cases size
    omega

theorem int64_result_eq {v r : Int} (sum : int64.result v = some r) : int64.Holds v ∧ r = v := by
  rw [int64_result] at sum
  split at sum
  · exact ⟨‹_›, (Option.some.inj sum).symm⟩
  · cases sum

/-- The rounding up overflows or is exact. -/
theorem numChunks_eq (nonempty : 0 < numIterations) (positive : 0 < chunk_size) :
    numChunks numIterations chunk_size =
      if numIterations + chunk_size ≤ int64.max then
        some ((numIterations + chunk_size - 1) / chunk_size)
      else none := by
  unfold numChunks
  split
  · rename_i fits
    have above : 0 ≤ numIterations + chunk_size - 1 := by omega
    have fewer := Int.ediv_le_self chunk_size above
    have least := Int.ediv_nonneg above (Int.le_of_lt positive)
    have sum : int64.Holds (numIterations + chunk_size) := int64_holds (by omega) fits
    have less : int64.Holds (numIterations + chunk_size - 1) := int64_holds above (by omega)
    have quotient : int64.Holds ((numIterations + chunk_size - 1) / chunk_size) :=
      int64_holds least (by omega)
    rw [Kind.result_of_holds sum, Option.bind_eq_bind, Option.bind_some,
      Kind.result_of_holds less, Option.bind_some, Kind.quotient,
      if_neg (Int.ne_of_gt positive), Int.tdiv_eq_ediv_of_nonneg above,
      Kind.result_of_holds quotient]
  · rw [int64_result, if_neg fun held => ‹¬ _› held.2]
    rfl

theorem numChunks_nonpos {n : Int} (negative : numIterations ≤ 0) (positive : 0 < chunk_size)
    (chunks : numChunks numIterations chunk_size = some n) : n ≤ 0 := by
  simp only [numChunks, Option.bind_eq_bind, Option.bind_eq_some_iff] at chunks
  obtain ⟨sum, hsum, less, hless, chunks⟩ := chunks
  obtain ⟨-, rfl⟩ := int64_result_eq hsum
  obtain ⟨-, rfl⟩ := int64_result_eq hless
  rw [Kind.quotient, if_neg (Int.ne_of_gt positive)] at chunks
  rw [(int64_result_eq chunks).2]
  rcases lt_or_ge (numIterations + chunk_size - 1) 0 with below | above
  · have mirror := Int.tdiv_nonneg (Int.neg_nonneg_of_nonpos (Int.le_of_lt below))
      (Int.le_of_lt positive)
    rw [Int.neg_tdiv] at mirror
    omega
  · exact Int.le_of_eq (Int.tdiv_eq_zero_of_lt above (by omega))

def Call.whole (c : Call) : Int := (c.length - 1) / c.size

def Call.bounds (c : Call) (k : Nat) : Int × Int :=
  (c.from_ + k * c.size, c.from_ + (k + 1) * c.size)

theorem whole_nonneg (c : Call) : 0 ≤ c.whole :=
  Int.ediv_nonneg (by have := length_pos c; omega) (Int.le_of_lt (size_pos c))

theorem rounded_eq (c : Call) : (c.length + c.size - 1) / c.size = c.whole + 1 := by
  rw [Call.whole, add_sub_right_comm]
  exact Int.add_ediv_of_dvd_right (Int.dvd_refl _) |>.trans
    (by rw [Int.ediv_self (Int.ne_of_gt (size_pos c))])

theorem last_start (c : Call) : c.from_ + c.whole * c.size = c.to_ - c.tail := by
  have split := Int.mul_ediv_add_emod (c.length - 1) c.size
  rw [← Call.whole, Int.mul_comm] at split
  unfold Call.tail
  rw [Call.length] at split ⊢
  omega

theorem tail_pos (c : Call) : 0 < c.tail := by
  have := Int.emod_nonneg (c.length - 1) (Int.ne_of_gt (size_pos c))
  unfold Call.tail
  omega

theorem last_inside (c : Call) : c.from_ ≤ c.to_ - c.tail ∧ c.to_ - c.tail < c.to_ := by
  have offset := Int.mul_nonneg (whole_nonneg c) (Int.le_of_lt (size_pos c))
  have tail := tail_pos c
  have last := last_start c
  omega

theorem whole_held (rounding : c.length + c.size ≤ int64.max) : uint64.Holds (c.whole + 1) := by
  have positive := length_pos c
  have size := size_pos c
  have nonneg := whole_nonneg c
  have fewer := Int.ediv_le_self c.size (by omega : 0 ≤ c.length - 1)
  have wide : int64.max ≤ uint64.max := by decide
  refine ⟨Int.le_trans uint64.min_nonpos (by omega), ?_⟩
  unfold Call.whole
  omega

/-- A chunk begins where it would if IndexType were unbounded. -/
theorem chunkStart_eq (difference : c.length ≤ c.ty.promoted.max) (long : c.length ≤ int64.max)
    {k : Int} (positive : 0 ≤ k) (inside : k ≤ c.whole) :
    c.chunkStart c.size k = some (c.from_ + k * c.size) := by
  have offset := Int.mul_nonneg positive (Int.le_of_lt (size_pos c))
  have bound := Int.mul_le_mul_of_nonneg_right inside (Int.le_of_lt (size_pos c))
  have last := last_start c
  have tail := tail_pos c
  have upper := c.to_held.2
  have length : c.to_ - c.from_ = c.length := rfl
  obtain ⟨r, sum, converted⟩ := Kind.sum_defined c.from_held offset
    (by omega) (by omega)
  rw [Call.chunkStart, Kind.result_of_holds (int64_holds offset (by omega)), Option.bind_eq_bind,
    Option.bind_some, sum, Option.bind_some, converted]

/-- A chunk with another one behind it ends where that one begins. -/
theorem chunkEnd_eq (difference : c.length ≤ c.ty.promoted.max) {k : Int} (positive : 0 ≤ k)
    (inside : k < c.whole) :
    c.chunkEnd c.size (c.from_ + k * c.size) = some (c.from_ + (k + 1) * c.size) := by
  have offset := Int.mul_nonneg positive (Int.le_of_lt (size_pos c))
  have bound := Int.mul_le_mul_of_nonneg_right (Int.add_one_le_of_lt inside)
    (Int.le_of_lt (size_pos c))
  have last := last_start c
  have tail := tail_pos c
  have lower := c.from_held.1
  have upper := c.to_held.2
  have length : c.to_ - c.from_ = c.length := rfl
  rw [Int.add_mul, Int.one_mul] at bound ⊢
  obtain ⟨r, sum, converted⟩ := Kind.sum_defined (v := c.from_ + k * c.size) (d := c.size)
    (k := c.ty) ⟨by omega, by have := size_pos c; omega⟩ (Int.le_of_lt (size_pos c)) (by omega)
    (by omega)
  rw [Call.chunkEnd, sum, Option.bind_eq_bind, Option.bind_some, converted, min_eq_left (by omega),
    Int.add_assoc]

theorem chunks_whole (difference : c.length ≤ c.ty.promoted.max) (long : c.length ≤ int64.max)
    (n : Nat) (inside : n ≤ c.whole) :
    c.chunks c.size n = some ((List.range n).map c.bounds) := by
  induction n with
  | zero => rfl
  | succ n ih =>
    have starts := chunkStart_eq difference long (Int.natCast_nonneg n) (by omega)
    have ends := chunkEnd_eq difference (Int.natCast_nonneg n) (by omega)
    simp only [Call.chunks, ih (by omega), starts, ends, Option.bind_eq_bind, Option.bind_some,
      List.range_succ, List.map_append, List.map_singleton, Call.bounds]

theorem whole_flatten (c : Call) (n : Nat) :
    (((List.range n).map c.bounds).flatMap fun bound => Int.range bound.1 bound.2) =
      Int.range c.from_ (c.from_ + n * c.size) := by
  have positive := Int.le_of_lt (size_pos c)
  induction n with
  | zero => simp [Chunks.range_empty]
  | succ n ih =>
    have before := Int.mul_nonneg (Int.natCast_nonneg n) positive
    have next : ((n + 1 : Nat) : Int) * c.size = n * c.size + c.size := by
      push_cast
      ring
    rw [List.range_succ, List.map_append, List.flatMap_append, ih, List.map_singleton,
      List.flatMap_singleton, Call.bounds, next, Int.add_mul, Int.one_mul]
    exact Chunks.range_append (by omega) (by omega)

theorem last_held (c : Call) : c.ty.Holds (c.to_ - c.tail) := by
  obtain ⟨after, before⟩ := last_inside c
  exact ⟨Int.le_trans c.from_held.1 after, Int.le_trans (Int.le_of_lt before) c.to_held.2⟩

/-- The last chunk ends where the range does, or short of it. -/
theorem last_end (c : Call) : c.chunkEnd c.size (c.to_ - c.tail) = some c.to_ ↔
    c.narrowed ≤ c.ty.promoted.max ∧ c.tail ≤ c.narrowed ∧
      c.to_ - c.tail + c.narrowed ≤ c.ty.max := by
  have tail := tail_pos c
  have positive : 0 ≤ c.narrowed := Int.emod_nonneg _ (Int.ne_of_gt c.ty.modulus_pos)
  have small : c.narrowed < c.ty.modulus := Int.emod_lt_of_pos _ c.ty.modulus_pos
  have size : c.ty.convert c.size = c.ty.convert c.narrowed := by
    have := Kind.convert_emod (k := c.ty) 0 c.size
    rw [Int.zero_add, Int.zero_add] at this
    exact this.symm
  rw [Call.chunkEnd, size]
  constructor
  · intro ends
    rw [Option.bind_eq_bind, Option.bind_eq_some_iff] at ends
    obtain ⟨r, sum, least⟩ := ends
    have reaches : c.to_ ≤ c.ty.convert r := min_eq_right_iff.mp (Option.some.inj least)
    obtain ⟨added, stays⟩ := Kind.sum_whole (last_held c) small sum (by omega)
    rw [Kind.sum_converted sum, Kind.convert_below (last_held c) positive stays] at reaches
    exact ⟨added, by omega, stays⟩
  · rintro ⟨added, reaches, stays⟩
    obtain ⟨r, sum, converted⟩ := Kind.sum_defined (last_held c) positive stays added
    rw [sum, Option.bind_eq_bind, Option.bind_some, converted, min_eq_right (by omega)]

theorem tasks_eq (difference : c.length ≤ c.ty.promoted.max)
    (rounding : c.length + c.size ≤ int64.max) (room : c.whole + 1 ≤ c.max_size) :
    c.tasks = (defined (c.chunkEnd c.size (c.to_ - c.tail))).map fun chunkEnd =>
      .ofBounds ((List.range c.whole.toNat).map c.bounds ++ [(c.to_ - c.tail, chunkEnd)]) := by
  have positive := size_pos c
  have long : c.length ≤ int64.max := by omega
  have nonneg := whole_nonneg c
  have chunks : uint64.convert (c.whole + 1) = c.whole + 1 :=
    Kind.convert_of_holds (whole_held rounding)
  have last : (c.whole + 1).toNat = c.whole.toNat + 1 := by omega
  have starts := chunkStart_eq difference long nonneg (le_refl c.whole)
  have before := chunks_whole difference long c.whole.toNat (by omega)
  rw [Call.tasks, numIterations_eq, if_pos difference,
    Kind.convert_of_holds (int64_holds (Int.le_of_lt (length_pos c)) long)]
  simp only [defined, bind, Except.bind, chunk_size_eq long, numChunks_eq (length_pos c) positive,
    if_pos rounding, rounded_eq, chunks, if_neg (Int.not_lt.mpr room), last, Call.chunks,
    Int.toNat_of_nonneg nonneg, before, starts, last_start, Option.bind]
  cases c.chunkEnd c.size (c.to_ - c.tail) with
  | none => rfl
  | some chunkEnd => rfl

theorem tasks_ok {tasks : Loops.Family} (ok : c.tasks = .ok tasks) :
    ∃ numIterations chunk_size n chunks, c.numIterations = some numIterations ∧
      c.chunk_size numIterations = some chunk_size ∧ numChunks numIterations chunk_size = some n ∧
      uint64.convert n ≤ c.max_size ∧ c.chunks chunk_size n.toNat = some chunks ∧
      tasks = .ofBounds chunks := by
  have named : ∀ {α : Type} {o : Option α} {a : α}, defined o = .ok a → o = some a := by
    intro α o a h
    cases o with
    | none => cases h
    | some b => exact congrArg some (Except.ok.inj h)
  simp only [Call.tasks, bind, Except.bind] at ok
  split at ok
  · cases ok
  · rename_i numIterations first
    split at ok
    · cases ok
    · rename_i chunk_size second
      split at ok
      · cases ok
      · rename_i n third
        split at ok
        · cases ok
        · rename_i room
          split at ok
          · cases ok
          · rename_i chunks fourth
            exact ⟨numIterations, chunk_size, n, chunks, named first, named second, named third,
              by omega, named fourth, (Except.ok.inj ok).symm⟩

theorem visits_all : c.VisitsOnce ↔ ∃ tasks, c.tasks = .ok tasks ∧
    ∀ i, tasks.all.count i = if c.from_ ≤ i ∧ i < c.to_ then 1 else 0 := by
  simp only [Call.VisitsOnce, Loops.ended_count]

/-- A length past int64_t is negative there, and no chunk comes of it. -/
theorem wrapped_none {tasks : Loops.Family} (difference : c.length ≤ c.ty.promoted.max)
    (wraps : int64.max < c.length) (ok : c.tasks = .ok tasks) : tasks.all = [] := by
  obtain ⟨N, chunk_size, n, chunks, first, second, third, -, fourth, rfl⟩ := tasks_ok ok
  rw [numIterations_eq, if_pos difference] at first
  have wide : c.ty.promoted.max ≤ uint64.max := by
    rcases c.ty with ⟨width, signed⟩
    cases width <;> cases signed <;> decide
  have bits : int64.modulus = uint64.max + 1 := by decide
  have negative := Option.some.inj first
  rw [Kind.convert_past wraps (by omega)] at negative
  have none := numChunks_nonpos (by omega) (chunk_size_pos second) third
  rw [Int.toNat_of_nonpos none] at fourth
  rw [← Option.some.inj fourth]
  rfl

theorem visits_counted (visits : c.VisitsOnce) : c.length ≤ c.ty.promoted.max ∧
    c.length + c.size ≤ int64.max ∧ c.whole + 1 ≤ c.max_size := by
  obtain ⟨tasks, ok, counts⟩ := visits_all.mp visits
  obtain ⟨N, chunk_size, n, chunks, first, second, third, room, -, -⟩ := tasks_ok ok
  have positive := length_pos c
  rw [numIterations_eq] at first
  split at first
  · rename_i difference
    have long : c.length ≤ int64.max := by
      by_contra wraps
      have unvisited := counts c.from_
      rw [wrapped_none difference (by omega) ok, if_pos ⟨le_refl _, c.ordered⟩] at unvisited
      cases unvisited
    rw [Kind.convert_of_holds (int64_holds (Int.le_of_lt positive) long)] at first
    rw [← Option.some.inj first, chunk_size_eq long] at second
    rw [← Option.some.inj first, ← Option.some.inj second,
      numChunks_eq positive (size_pos c)] at third
    split at third
    · rename_i rounding
      rw [← Option.some.inj third, rounded_eq, Kind.convert_of_holds (whole_held rounding)] at room
      exact ⟨difference, rounding, room⟩
    · cases third
  · cases first

theorem last_all (c : Call) (chunkEnd : Int) :
    (Loops.Family.ofBounds ((List.range c.whole.toNat).map c.bounds ++
      [(c.to_ - c.tail, chunkEnd)])).all =
        Int.range c.from_ (c.to_ - c.tail) ++ Int.range (c.to_ - c.tail) chunkEnd := by
  rw [Loops.ofBounds_all, List.flatMap_append, whole_flatten,
    Int.toNat_of_nonneg (whole_nonneg c), last_start c, List.flatMap_singleton]

theorem visits_last (difference : c.length ≤ c.ty.promoted.max)
    (rounding : c.length + c.size ≤ int64.max) (room : c.whole + 1 ≤ c.max_size)
    (visits : c.VisitsOnce) : c.chunkEnd c.size (c.to_ - c.tail) = some c.to_ := by
  obtain ⟨after, before⟩ := last_inside c
  obtain ⟨tasks, ok, counts⟩ := visits_all.mp visits
  rw [tasks_eq difference rounding room] at ok
  cases ends : c.chunkEnd c.size (c.to_ - c.tail) with
  | none =>
    rw [ends] at ok
    cases ok
  | some chunkEnd =>
    rw [ends] at ok
    have short : chunkEnd ≤ c.to_ := by
      rw [Call.chunkEnd, Option.bind_eq_bind, Option.bind_eq_some_iff] at ends
      obtain ⟨r, -, least⟩ := ends
      exact (Option.some.inj least).symm.trans_le (min_le_right ..)
    have final := counts (c.to_ - 1)
    have inside : c.from_ ≤ c.to_ - 1 ∧ c.to_ - 1 < c.to_ := by omega
    rw [← Except.ok.inj ok, last_all, List.count_append, Chunks.count_range, Chunks.count_range,
      if_neg (by omega), if_pos inside, Nat.zero_add] at final
    split at final
    · congr 1
      omega
    · cases final

/-- The same call over unbounded integers. -/
def Call.unbounded (c : Call) : Parfor.Call :=
  ⟨c.static_chunk_size, c.from_, c.to_, c.thread_count⟩

/-- Where the call fits, the machine's tasks are those of the unbounded call. -/
theorem tasks_unbounded (fits : c.Fits) :
    ∃ tasks, c.tasks = .ok tasks ∧ tasks.all = c.unbounded.tasks.all := by
  obtain ⟨after, before⟩ := last_inside c
  have room := fits.chunks
  rw [rounded_eq] at room
  have ends := (last_end c).mpr ⟨fits.narrowed, fits.reaches, fits.stays⟩
  rw [tasks_eq fits.difference fits.rounding room, ends]
  refine ⟨_, rfl, ?_⟩
  rw [last_all, Chunks.range_append after (Int.le_of_lt before),
    Parfor.all_eq (c := c.unbounded) c.ordered c.mode]
  rfl

/-- At fixed width the loop works where the range, rounded up to whole chunks, fits the types it
is computed in, and nowhere else. -/
theorem visits_once_iff (c : Call) : c.VisitsOnce ↔ c.Fits := by
  constructor
  · intro visits
    obtain ⟨difference, rounding, room⟩ := visits_counted visits
    obtain ⟨narrowed, reaches, stays⟩ :=
      (last_end c).mp (visits_last difference rounding room visits)
    exact ⟨difference, rounding, rounded_eq c ▸ room, narrowed, reaches, stays⟩
  · intro fits
    obtain ⟨tasks, ok, same⟩ := tasks_unbounded fits
    refine visits_all.mpr ⟨tasks, ok, fun i => ?_⟩
    rw [same, Parfor.all_eq (c := c.unbounded) c.ordered c.mode, Chunks.count_range]
    rfl

def byteCall : Call :=
  ⟨⟨.w8, false⟩, -1, 0, 255, 2, 2 ^ 60, by decide, by decide, by decide, by decide, by decide,
    by decide, by decide⟩

example : ¬ byteCall.Fits := by decide

theorem last_skipped : byteCall.tasks = .ok (.ofBounds [(0, 127), (127, 254), (254, 125)]) ∧
    ¬ ∀ c : Call, c.VisitsOnce := by
  have tasks : byteCall.tasks = .ok (.ofBounds [(0, 127), (127, 254), (254, 125)]) := by rfl
  refine ⟨tasks, fun every => ?_⟩
  obtain ⟨found, ok, counts⟩ := visits_all.mp (every byteCall)
  have final := counts 254
  rw [← Except.ok.inj (tasks.symm.trans ok), Loops.ofBounds_all] at final
  simp [Chunks.count_range, byteCall] at final

end Pot.ParforWidth
