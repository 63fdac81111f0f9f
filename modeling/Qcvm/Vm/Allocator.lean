import Qcvm.Lib.Tiling
import Qcvm.Vm.Heap

/-!
# The heap is a pool of blocks

The two block tables of the heap hold, in order, blocks that cut its region into used and free
pieces. Allocating, freeing and reallocating keep it so, and change no byte of a used block.
-/

namespace Qcvm

open Lib

/-! ## Block tables -/

namespace Blocks

variable {α : Type} {key k : Nat} {value v : α} {blocks : Blocks α} {b : Nat × α}

/-- The blocks are in increasing order of their offsets. -/
def Sorted (blocks : Blocks α) : Prop := blocks.Pairwise fun b c => b.1 < c.1

/-- The first block lies before the others. -/
lemma Sorted.head_lt {b : Nat × α} (s : Sorted (b :: blocks)) : ∀ c ∈ blocks, b.1 < c.1 :=
  (List.pairwise_cons.mp s).1

/-- Sorted blocks without the first are sorted. -/
lemma Sorted.tail (s : Sorted (b :: blocks)) : Sorted blocks := (List.pairwise_cons.mp s).2

/-- Blocks at one offset are one. -/
lemma Sorted.eq_of_key {c : Nat × α} (s : Sorted blocks) (hb : b ∈ blocks) (hc : c ∈ blocks)
    (same : b.1 = c.1) : b = c := by
  induction blocks with
  | nil => cases hb
  | cons d rest ih =>
    rcases List.mem_cons.mp hb with rfl | left
    · rcases List.mem_cons.mp hc with rfl | right
      · rfl
      · have := s.head_lt c right
        omega
    · rcases List.mem_cons.mp hc with rfl | right
      · have := s.head_lt b left
        omega
      · exact ih s.tail left right

/-- The blocks after an insertion. -/
lemma mem_insert (s : Sorted blocks) :
    b ∈ insert key value blocks ↔ b = (key, value) ∨ b ∈ blocks ∧ b.1 ≠ key := by
  induction blocks with
  | nil => simp [insert]
  | cons c rest ih =>
    obtain ⟨k, v⟩ := c
    have above := s.head_lt
    unfold insert
    split
    next lt =>
      constructor
      · intro mem
        rcases List.mem_cons.mp mem with rfl | mem
        · exact .inl rfl
        · refine .inr ⟨mem, ?_⟩
          rcases List.mem_cons.mp mem with rfl | mem
          · exact Nat.ne_of_gt lt
          · have := above b mem
            dsimp only at this
            omega
      · rintro (rfl | ⟨mem, -⟩)
        · exact List.mem_cons_self
        · exact List.mem_cons_of_mem _ mem
    next ge =>
      split
      next same =>
        subst same
        constructor
        · intro mem
          rcases List.mem_cons.mp mem with rfl | mem
          · exact .inl rfl
          · exact .inr ⟨List.mem_cons_of_mem _ mem, Nat.ne_of_gt (above b mem)⟩
        · rintro (rfl | ⟨mem, ne⟩)
          · exact List.mem_cons_self
          · rcases List.mem_cons.mp mem with rfl | mem
            · exact absurd rfl ne
            · exact List.mem_cons_of_mem _ mem
      next ne =>
        rw [List.mem_cons, ih s.tail, List.mem_cons]
        constructor
        · rintro (rfl | rfl | ⟨mem, other⟩)
          · exact .inr ⟨.inl rfl, Ne.symm ne⟩
          · exact .inl rfl
          · exact .inr ⟨.inr mem, other⟩
        · rintro (rfl | ⟨rfl | mem, other⟩)
          · exact .inr (.inl rfl)
          · exact .inl rfl
          · exact .inr (.inr ⟨mem, other⟩)

/-- An insertion keeps blocks sorted. -/
lemma Sorted.insert (s : Sorted blocks) : Sorted (insert key value blocks) := by
  induction blocks with
  | nil => exact List.pairwise_singleton _ _
  | cons c rest ih =>
    obtain ⟨k, v⟩ := c
    unfold Blocks.insert
    split
    next lt =>
      refine List.pairwise_cons.mpr ⟨fun d mem => ?_, s⟩
      rcases List.mem_cons.mp mem with rfl | mem
      · exact lt
      · exact Nat.lt_trans lt (s.head_lt d mem)
    next ge =>
      split
      next same =>
        subst same
        exact List.pairwise_cons.mpr ⟨s.head_lt, s.tail⟩
      next ne =>
        refine List.pairwise_cons.mpr ⟨fun d mem => ?_, ih s.tail⟩
        rcases (mem_insert s.tail).mp mem with rfl | ⟨mem, -⟩
        · dsimp only
          omega
        · exact s.head_lt d mem

/-- The blocks after a removal. -/
lemma mem_remove : b ∈ remove key blocks ↔ b ∈ blocks ∧ b.1 ≠ key := by
  unfold remove
  rw [List.mem_filter, bne_iff_ne]

/-- A removal keeps blocks sorted. -/
lemma Sorted.remove (s : Sorted blocks) : Sorted (remove key blocks) := List.Pairwise.filter _ s

/-- A lookup finds the block at an offset. -/
lemma get_eq_some (s : Sorted blocks) : get key blocks = some value ↔ (key, value) ∈ blocks := by
  unfold get
  induction blocks with
  | nil => simp
  | cons c rest ih =>
    obtain ⟨k, v⟩ := c
    have above := s.head_lt
    rw [List.lookup_cons, List.mem_cons]
    by_cases same : key = k
    · subst same
      rw [beq_self_eq_true]
      constructor
      · intro e
        cases e
        exact .inl rfl
      · rintro (e | mem)
        · cases e
          rfl
        · exact absurd (above _ mem) (Nat.lt_irrefl _)
    · rw [beq_eq_false_iff_ne.mpr same]
      refine (ih s.tail).trans ⟨.inr, ?_⟩
      rintro (e | mem)
      · cases e
        exact absurd rfl same
      · exact mem

/-- The block below an offset is the last one below it. -/
lemma below_eq_some (s : Sorted blocks) (e : below key blocks = some b) :
    b ∈ blocks ∧ b.1 < key ∧ ∀ c ∈ blocks, c.1 < key → c.1 ≤ b.1 := by
  unfold below at e
  obtain ⟨front, split⟩ := List.getLast?_eq_some_iff.mp e
  have mem : b ∈ blocks.filter fun c => c.1 < key := by
    rw [split]
    exact List.mem_append_right _ (List.mem_singleton_self b)
  rw [List.mem_filter, decide_eq_true_eq] at mem
  refine ⟨mem.1, mem.2, fun c hc lt => ?_⟩
  have listed : c ∈ front ++ [b] := by
    rw [← split, List.mem_filter, decide_eq_true_eq]
    exact ⟨hc, lt⟩
  have sorted : (front ++ [b]).Pairwise fun b c => b.1 < c.1 := split ▸ List.Pairwise.filter _ s
  rcases List.mem_append.mp listed with earlier | last
  · exact ((List.pairwise_append.mp sorted).2.2 c earlier b (List.mem_singleton_self b)).le
  · rw [List.mem_singleton.mp last]

/-- Where no block lies below an offset all lie from it on. -/
lemma below_eq_none (e : below key blocks = none) : ∀ c ∈ blocks, key ≤ c.1 := by
  unfold below at e
  intro c mem
  by_contra lt
  have listed : c ∈ blocks.filter fun c => c.1 < key := by
    rw [List.mem_filter, decide_eq_true_eq]
    exact ⟨mem, Nat.lt_of_not_le lt⟩
  rw [List.getLast?_eq_none_iff.mp e] at listed
  cases listed

/-- The blocks without the one at an offset, if there is one. -/
lemma mem_dropped (s : Sorted blocks) :
    b ∈ (if (get key blocks).isSome then remove key blocks else blocks) ↔
      b ∈ blocks ∧ b.1 ≠ key := by
  split
  next => exact mem_remove
  next missing =>
    refine ⟨fun mem => ⟨mem, fun same => missing ?_⟩, fun kept => kept.1⟩
    obtain ⟨k, v⟩ := b
    subst same
    rw [(get_eq_some s).mpr mem]
    rfl

/-- Dropping the block at an offset keeps blocks sorted. -/
lemma Sorted.dropped (s : Sorted blocks) :
    Sorted (if (get key blocks).isSome then Blocks.remove key blocks else blocks) := by
  split
  next => exact s.remove
  next => exact s

end Blocks

/-! ## The pool -/

/-- A rounded size is aligned, positive and no smaller. -/
lemma roundUp_eq_some {n size : Nat} (e : roundUp n = some size) :
    n ≤ size ∧ 0 < size ∧ heapAlign ∣ size ∧ size ≤ u32Max := by
  unfold roundUp at e
  obtain ⟨sum, added, rfl⟩ := Option.map_eq_some_iff.mp e
  obtain ⟨le, rfl⟩ := checkedAdd_eq_some.mp added
  unfold heapAlign u32Max at *
  refine ⟨?_, ?_, Nat.dvd_mul_left _ _, ?_⟩ <;> omega

namespace Heap

/-- The blocks that are allocated, with their rounded sizes. -/
def usedBlocks (h : Heap) : Set (Nat × Nat) := { b | ∃ n, (b.1, (b.2, n)) ∈ h.used }

/-- The free blocks. -/
def freeBlocks (h : Heap) : Set (Nat × Nat) := { b | b ∈ h.free }

/-- The used and the free blocks partition the region, which is within the limit; they are aligned,
a used block has room for what was asked for, and no two free blocks are neighbours. -/
structure Sound (h : Heap) : Prop where
  usedSorted : h.used.Sorted
  freeSorted : h.free.Sorted
  pool : Pool h.usedBlocks h.freeBlocks h.data.size
  aligned : ∀ b ∈ h.usedBlocks ∪ h.freeBlocks, heapAlign ∣ b.1 ∧ heapAlign ∣ b.2
  rounded : ∀ o s n, (o, (s, n)) ∈ h.used → roundUp n = some s
  within : h.data.size ≤ h.max
  limit : h.max ≤ u32Max

variable {h h' : Heap}

/-- The used blocks are those of the table. -/
lemma mem_usedBlocks {o s : Nat} : (o, s) ∈ h.usedBlocks ↔ ∃ n, (o, (s, n)) ∈ h.used := Iff.rfl

/-- Removing a block from the table takes it from the used ones. -/
lemma usedBlocks_remove (s : h.used.Sorted) {o size n : Nat} (mem : (o, (size, n)) ∈ h.used)
    {g : Heap} (e : g.used = h.used.remove o) : g.usedBlocks = h.usedBlocks \ {(o, size)} := by
  ext b
  obtain ⟨bo, bs⟩ := b
  rw [mem_usedBlocks, e, Set.mem_sdiff, mem_usedBlocks, Set.mem_singleton_iff]
  constructor
  · rintro ⟨m, kept⟩
    obtain ⟨kept, ne⟩ := Blocks.mem_remove.mp kept
    refine ⟨⟨m, kept⟩, fun same => ?_⟩
    cases same
    exact ne rfl
  · rintro ⟨⟨m, kept⟩, ne⟩
    refine ⟨m, Blocks.mem_remove.mpr ⟨kept, fun same => ?_⟩⟩
    have one := s.eq_of_key kept mem same
    cases one
    exact ne rfl

/-- A new heap is sound. -/
lemma sound_new (max : Nat) (le : max ≤ u32Max) : (new max).Sound where
  usedSorted := List.Pairwise.nil
  freeSorted := List.Pairwise.nil
  pool := by
    have none (b : Nat × Nat) : b ∉ (∅ : Set (Nat × Nat)) := Set.notMem_empty b
    have used : (new max).usedBlocks = ∅ := by
      ext b
      exact ⟨fun ⟨_, mem⟩ => absurd mem List.not_mem_nil, fun mem => absurd mem (none _)⟩
    have free : (new max).freeBlocks = ∅ := by
      ext b
      exact ⟨fun mem => absurd mem List.not_mem_nil, fun mem => absurd mem (none _)⟩
    rw [used, free]
    refine ⟨?_, fun b mem => absurd mem (none b), fun b mem => absurd mem (none b)⟩
    rw [Set.union_empty]
    exact .empty
  aligned := by
    rintro b (⟨_, mem⟩ | mem)
    · exact absurd mem List.not_mem_nil
    · exact absurd mem List.not_mem_nil
  rounded _ _ _ mem := absurd mem List.not_mem_nil
  within := Nat.zero_le _
  limit := Nat.le_trans (Nat.div_mul_le_self _ _) le

/-! ## Allocating -/

/-- What an allocation of `n` bytes at `o` does: it takes a zeroed block of `size` bytes, apart from
all used blocks, and changes no byte of them. -/
structure Allocated (h : Heap) (n o size : Nat) (h' : Heap) : Prop where
  rounded : roundUp n = some size
  used : ∀ b, b ∈ h'.used ↔ b = (o, (size, n)) ∨ b ∈ h.used
  fresh : ∀ b ∈ h.usedBlocks, BlocksApart b (o, size)
  inside : o + size ≤ h'.data.size
  grows : h.data.size ≤ h'.data.size
  placed : o + size ≤ h.data.size ∨ h.data.size ≤ o
  zero : ∀ i, InBlock (o, size) i → h'.data.get i = 0
  kept : ∀ b ∈ h.usedBlocks, ∀ i, InBlock b i → h'.data.get i = h.data.get i
  max : h'.max = h.max

/-- A zeroed block is zero. -/
lemma get_zeroBlock {data : Arr Byte} {o size i : Nat} (fits : o + size ≤ data.size)
    (lies : InBlock (o, size) i) : (zeroBlock data o size).get i = 0 := by
  have length : (List.replicate size (0 : Byte)).length = size := List.length_replicate
  unfold zeroBlock
  rw [Arr.get_write_of_inside (by omega) lies.1 (by rw [length]; exact lies.2)]
  unfold List.getD
  rw [List.getElem?_replicate]
  split <;> rfl

/-- Zeroing a block keeps the bytes outside it. -/
lemma get_zeroBlock_of_apart {data : Arr Byte} {o size i : Nat} (out : ¬ InBlock (o, size) i) :
    (zeroBlock data o size).get i = data.get i := by
  have length : (List.replicate size (0 : Byte)).length = size := List.length_replicate
  unfold InBlock at out
  unfold zeroBlock
  exact Arr.get_write_of_outside (by rw [length]; dsimp only at out; omega)

/-- A used block is not where a free one is, or behind the region. -/
lemma Sound.allocated (s : h.Sound) {n o size : Nat} {data : Arr Byte} {free : Blocks Nat}
    (rounded : roundUp n = some size) (fits : o + size ≤ data.size)
    (grows : h.data.size ≤ data.size) (placed : o + size ≤ h.data.size ∨ h.data.size ≤ o)
    (fresh : ∀ b ∈ h.usedBlocks, BlocksApart b (o, size))
    (same : ∀ b ∈ h.usedBlocks, ∀ i, InBlock b i → data.get i = h.data.get i) :
    h.Allocated n o size { h with
      data := zeroBlock data o size
      used := h.used.insert o (size, n)
      free := free } where
  rounded := rounded
  used := by
    intro b
    obtain ⟨bo, bs, bn⟩ := b
    refine (Blocks.mem_insert s.usedSorted).trans
      (or_congr_right ⟨fun mem => mem.1, fun mem => ⟨mem, ?_⟩⟩)
    intro e
    have used : (bo, bs) ∈ h.usedBlocks := ⟨bn, mem⟩
    have apart := fresh _ used
    have := s.pool.pos _ (.inl used)
    have := (roundUp_eq_some rounded).2.1
    unfold BlocksApart at apart
    dsimp only at *
    omega
  fresh := fresh
  inside := fits
  grows := grows
  placed := placed
  zero _ lies := get_zeroBlock fits lies
  kept b mem i lies := by
    have out : ¬ InBlock (o, size) i := (fresh b mem).not_in lies
    exact (get_zeroBlock_of_apart out).trans (same b mem i lies)
  max := rfl

/-- A pool with one block more is sound. -/
lemma Allocated.sound {n o size : Nat} (a : h.Allocated n o size h') (s : h.Sound)
    (usedSorted : h'.used.Sorted) (freeSorted : h'.free.Sorted)
    (pool : Pool (insert (o, size) h.usedBlocks) h'.freeBlocks h'.data.size)
    (start : heapAlign ∣ o) (aligned : ∀ b ∈ h'.freeBlocks, heapAlign ∣ b.1 ∧ heapAlign ∣ b.2)
    (within : h'.data.size ≤ h.max) : h'.Sound := by
  have blocks : h'.usedBlocks = insert (o, size) h.usedBlocks := by
    ext b
    obtain ⟨bo, bs⟩ := b
    rw [mem_usedBlocks, Set.mem_insert_iff, mem_usedBlocks]
    constructor
    · rintro ⟨m, mem⟩
      rcases (a.used _).mp mem with same | mem
      · cases same
        exact .inl rfl
      · exact .inr ⟨m, mem⟩
    · rintro (same | ⟨m, mem⟩)
      · cases same
        exact ⟨n, (a.used _).mpr (.inl rfl)⟩
      · exact ⟨m, (a.used _).mpr (.inr mem)⟩
  refine ⟨usedSorted, freeSorted, blocks ▸ pool, ?_, ?_, a.max ▸ within, a.max ▸ s.limit⟩
  · rintro b (used | free)
    · rw [blocks] at used
      rcases used with rfl | used
      · exact ⟨start, (roundUp_eq_some a.rounded).2.2.1⟩
      · exact s.aligned b (.inl used)
    · exact aligned b free
  · intro o' s' n' mem
    rcases (a.used _).mp mem with same | mem
    · cases same
      exact a.rounded
    · exact s.rounded o' s' n' mem

/-- Why an allocation of `n` bytes fails: no free block has room for them, and neither has what is
left behind the region. -/
def Full (h : Heap) (n : Nat) : Prop :=
  ∀ size, roundUp n = some size → (∀ f ∈ h.freeBlocks, f.2 < size) ∧ h.max < h.data.size + size

/-- Removing a block from the free ones takes it from their set. -/
lemma freeBlocks_remove (s : h.free.Sorted) {o len : Nat} (mem : (o, len) ∈ h.free) :
    { b | b ∈ h.free.remove o } = h.freeBlocks \ {(o, len)} := by
  ext b
  rw [Set.mem_ofPred_eq, Set.mem_sdiff, Set.mem_singleton_iff, Blocks.mem_remove]
  refine and_congr_right fun kept => not_congr ⟨fun same => ?_, fun same => ?_⟩
  · exact s.eq_of_key kept mem same
  · rw [same]

/-- Inserting a block into the free ones adds it to their set. -/
lemma freeBlocks_insert {free : Blocks Nat} (s : free.Sorted) {o len : Nat}
    (fresh : ∀ b ∈ free, b.1 ≠ o) :
    { b | b ∈ free.insert o len } = insert (o, len) { b | b ∈ free } := by
  ext b
  rw [Set.mem_ofPred_eq, Set.mem_insert_iff, Set.mem_ofPred_eq, Blocks.mem_insert s]
  exact or_congr_right ⟨fun mem => mem.1, fun mem => ⟨mem, fresh b mem⟩⟩

/-- An allocation from a free block. -/
lemma Sound.take (s : h.Sound) {n o len size : Nat} (rounded : roundUp n = some size)
    (mem : (o, len) ∈ h.free) (le : size ≤ len) {free : Blocks Nat} (sorted : free.Sorted)
    (blocks : size = len ∧ { b | b ∈ free } = h.freeBlocks \ {(o, len)} ∨
      size < len ∧ { b | b ∈ free } = insert (o + size, len - size) (h.freeBlocks \ {(o, len)})) :
    let h' : Heap := { h with
      data := zeroBlock h.data o size
      used := h.used.insert o (size, n)
      free := free }
    h.Allocated n o size h' ∧ h'.Sound := by
  intro h'
  have free' : (o, len) ∈ h.freeBlocks := mem
  have inside := s.pool.inside _ (.inr free')
  have fresh : ∀ b ∈ h.usedBlocks, BlocksApart b (o, size) := by
    intro b used
    have ne : b ≠ (o, len) := fun e => s.pool.disjoint b used (e ▸ free')
    have apart := s.pool.apart b (.inl used) _ (.inr free') ne
    unfold BlocksApart at *
    dsimp only at *
    omega
  have fits : o + size ≤ h.data.size := by
    dsimp only at inside
    omega
  have allocated : h.Allocated n o size h' :=
    s.allocated rounded fits (Nat.le_refl _) (.inl fits) fresh fun _ _ _ _ => rfl
  have aligned := s.aligned _ (.inr free')
  obtain ⟨-, pos, divides, -⟩ := roundUp_eq_some rounded
  refine ⟨allocated, allocated.sound s s.usedSorted.insert sorted ?_ aligned.1 ?_ s.within⟩
  · show Pool _ { b | b ∈ free } _
    rcases blocks with ⟨rfl, blocks⟩ | ⟨lt, blocks⟩
    · rw [blocks]
      exact s.pool.take free'
    · rw [blocks]
      exact s.pool.takeFront free' pos lt
  · intro b hb
    have hb : b ∈ { b | b ∈ free } := hb
    rcases blocks with ⟨rfl, blocks⟩ | ⟨lt, blocks⟩
    · rw [blocks] at hb
      exact s.aligned b (.inr hb.1)
    · rw [blocks] at hb
      rcases hb with rfl | hb
      · exact ⟨Nat.dvd_add aligned.1 divides, Nat.dvd_sub aligned.2 divides⟩
      · exact s.aligned b (.inr hb.1)

/-- An allocation behind the region. -/
lemma Sound.grow (s : h.Sound) {n size : Nat} (rounded : roundUp n = some size)
    (room : h.data.size + size ≤ h.max) :
    let h' : Heap := { h with
      data := zeroBlock (h.data.resize (h.data.size + size) 0) h.data.size size
      used := h.used.insert h.data.size (size, n) }
    h.Allocated n h.data.size size h' ∧ h'.Sound := by
  intro h'
  obtain ⟨-, pos, divides, -⟩ := roundUp_eq_some rounded
  have fresh : ∀ b ∈ h.usedBlocks, BlocksApart b (h.data.size, size) :=
    fun b used => .inl (s.pool.inside b (.inl used))
  have allocated : h.Allocated n h.data.size size h' := by
    refine s.allocated rounded (Nat.le_refl _) (Nat.le_add_right _ _) (.inr (Nat.le_refl _)) fresh
      fun b used i lies => ?_
    have inside := s.pool.inside b (.inl used)
    unfold InBlock at lies
    exact Arr.get_resize_of_lt _ (by omega) (by omega)
  have start : heapAlign ∣ h.data.size := by
    by_cases none : h.data.size = 0
    · rw [none]
      exact Nat.dvd_zero _
    · obtain ⟨b, mem, lo, hi⟩ := s.pool.covers (h.data.size - 1) (by omega)
      have inside := s.pool.inside b mem
      have aligned := s.aligned b mem
      rw [show h.data.size = b.1 + b.2 by omega]
      exact Nat.dvd_add aligned.1 aligned.2
  refine ⟨allocated, allocated.sound s s.usedSorted.insert s.freeSorted ?_ start ?_ room⟩
  · exact s.pool.extend pos
  · exact fun b free => s.aligned b (.inr free)

/-- An allocation takes a block, or fails for want of room and leaves the heap alone. -/
lemma Sound.alloc (s : h.Sound) (n : Nat) :
    (∃ o size h', h.alloc n = (some o, h') ∧ h.Allocated n o size h' ∧ h'.Sound) ∨
      h.alloc n = (none, h) ∧ h.Full n := by
  unfold Heap.alloc
  cases rounded : roundUp n with
  | none => exact .inr ⟨rfl, fun size e => by rw [rounded] at e; cases e⟩
  | some size =>
    dsimp only
    cases found : h.free.find? fun b => decide (size ≤ b.2) with
    | some b =>
      obtain ⟨o, len⟩ := b
      have le : size ≤ len := by simpa using List.find?_some found
      have mem := List.mem_of_find?_eq_some found
      have removed := freeBlocks_remove s.freeSorted mem
      have sorted : (h.free.remove o).Sorted := s.freeSorted.remove
      have inside := s.pool.inside (o, len) (.inr mem)
      have within := s.within
      have limit := s.limit
      dsimp only at le inside ⊢
      split
      next lt =>
        have sum : checkedAdd o size = some (o + size) := checkedAdd_eq_some.mpr ⟨by omega, rfl⟩
        have fresh : ∀ b ∈ h.free.remove o, b.1 ≠ o + size := by
          intro b hb start
          obtain ⟨free, ne⟩ := Blocks.mem_remove.mp hb
          have pos := (roundUp_eq_some rounded).2.1
          have positive := s.pool.pos b (.inr free)
          have same := s.pool.eq_of_in (i := o + size) (.inr free) (.inr mem)
            ⟨start.le, by omega⟩ ⟨Nat.le_add_right _ _, by dsimp only; omega⟩
          exact ne (congrArg Prod.fst same)
        obtain ⟨allocated, sound⟩ := s.take rounded mem le
          (@Blocks.Sorted.insert _ (o + size) (len - size) _ sorted)
          (.inr ⟨lt, by rw [freeBlocks_insert sorted fresh, removed]⟩)
        rw [sum]
        exact .inl ⟨o, size, _, rfl, allocated, sound⟩
      next ge =>
        obtain ⟨allocated, sound⟩ := s.take rounded mem le sorted (.inl ⟨by omega, removed⟩)
        exact .inl ⟨o, size, _, rfl, allocated, sound⟩
    | none =>
      have small : ∀ f ∈ h.freeBlocks, f.2 < size := by
        intro f mem
        have := List.find?_eq_none.mp found f mem
        simpa using this
      have within := s.within
      have limit := s.limit
      have full (more : h.max < h.data.size + size) : h.Full n := by
        intro size' e
        rw [rounded] at e
        cases e
        exact ⟨small, more⟩
      dsimp only
      rw [if_neg (by omega)]
      cases sum : checkedAdd h.data.size size with
      | none =>
        refine .inr ⟨rfl, full ?_⟩
        by_contra le
        rw [checkedAdd_eq_some.mpr ⟨by omega, rfl⟩] at sum
        cases sum
      | some finish =>
        obtain ⟨-, rfl⟩ := checkedAdd_eq_some.mp sum
        dsimp only
        split
        next lt => exact .inr ⟨rfl, full lt⟩
        next le =>
          obtain ⟨allocated, sound⟩ := s.grow rounded (Nat.le_of_not_lt le)
          exact .inl ⟨_, size, _, rfl, allocated, sound⟩

/-- An allocation that succeeds. -/
lemma Sound.of_alloc (s : h.Sound) {n o : Nat} (e : (h.alloc n).1 = some o) :
    ∃ size, h.Allocated n o size (h.alloc n).2 ∧ (h.alloc n).2.Sound := by
  rcases s.alloc n with ⟨o', size, g, taken, a, sound⟩ | ⟨failed, -⟩
  · rw [taken] at e ⊢
    cases e
    exact ⟨size, a, sound⟩
  · rw [failed] at e
    cases e

/-! ## Freeing -/

/-- What freeing the block at `o` does: the block is no longer used. -/
structure Released (h : Heap) (o : Nat) (h' : Heap) : Prop where
  used : h'.used = h.used.remove o
  data : h'.data = h.data
  max : h'.max = h.max

/-- The block at `o` is freed; the free block from `lo` to `hi` replaces its neighbours. -/
lemma Sound.giveBack (s : h.Sound) {o size n lo hi : Nat} (mem : (o, (size, n)) ∈ h.used)
    (front : lo = o ∧ (∀ f ∈ h.freeBlocks, f.1 + f.2 ≠ o) ∨ lo < o ∧ (lo, o - lo) ∈ h.freeBlocks)
    (back : hi = o + size ∧ (∀ f ∈ h.freeBlocks, f.1 ≠ o + size) ∨
      o + size < hi ∧ (o + size, hi - (o + size)) ∈ h.freeBlocks)
    (released : h.Released o h') (sorted : h'.free.Sorted)
    (free : ∀ f, f ∈ h'.free ↔
      f = (lo, hi - lo) ∨ f ∈ h.free ∧ f.1 ≠ o + size ∧ f.1 + f.2 ≠ o) : h'.Sound := by
  have used : (o, size) ∈ h.usedBlocks := ⟨n, mem⟩
  have usedBlocks : h'.usedBlocks = h.usedBlocks \ {(o, size)} :=
    usedBlocks_remove s.usedSorted mem released.used
  have freeBlocks : h'.freeBlocks = insert (lo, hi - lo)
      (h.freeBlocks \ { f | f ∈ h.freeBlocks ∧ (f.1 = o + size ∨ f.1 + f.2 = o) }) := by
    ext f
    refine (free f).trans (or_congr_right ?_)
    constructor
    · rintro ⟨kept, start, finish⟩
      exact ⟨kept, fun gone => gone.2.elim start finish⟩
    · rintro ⟨kept, out⟩
      exact ⟨kept, fun start => out ⟨kept, .inl start⟩, fun finish => out ⟨kept, .inr finish⟩⟩
  have aligned := s.aligned _ (.inl used)
  have bounds : lo ≤ o ∧ o + size ≤ hi ∧ heapAlign ∣ lo ∧ heapAlign ∣ hi - lo := by
    have lower : lo ≤ o ∧ heapAlign ∣ lo := by
      rcases front with ⟨rfl, -⟩ | ⟨lt, hf⟩
      · exact ⟨Nat.le_refl _, aligned.1⟩
      · exact ⟨lt.le, (s.aligned _ (.inr hf)).1⟩
    have upper : o + size ≤ hi ∧ heapAlign ∣ hi := by
      have ends := Nat.dvd_add aligned.1 aligned.2
      rcases back with ⟨rfl, -⟩ | ⟨lt, hf⟩
      · exact ⟨Nat.le_refl _, ends⟩
      · have := Nat.dvd_add ends (s.aligned _ (.inr hf)).2
        dsimp only at this
        rw [Nat.add_sub_cancel' lt.le] at this
        exact ⟨lt.le, this⟩
    exact ⟨lower.1, upper.1, lower.2, Nat.dvd_sub upper.2 lower.2⟩
  refine ⟨?_, sorted, ?_, ?_, ?_, ?_, released.max ▸ s.limit⟩
  · rw [released.used]
    exact s.usedSorted.remove
  · rw [usedBlocks, freeBlocks, released.data]
    exact s.pool.join used front back
  · rintro b (hb | hb)
    · rw [usedBlocks] at hb
      exact s.aligned b (.inl hb.1)
    · rw [freeBlocks] at hb
      rcases hb with rfl | hb
      · exact bounds.2.2
      · exact s.aligned b (.inr hb.1)
  · intro o' s' n' kept
    rw [released.used] at kept
    exact s.rounded o' s' n' (Blocks.mem_remove.mp kept).1
  · rw [released.data, released.max]
    exact s.within

/-- Where the block that a freed block becomes ends, and how long it is from there. -/
lemma Sound.back (s : h.Sound) {o size n : Nat} (mem : (o, (size, n)) ∈ h.used) :
    ∃ hi, (hi = o + size ∧ (∀ f ∈ h.freeBlocks, f.1 ≠ o + size) ∨
        o + size < hi ∧ (o + size, hi - (o + size)) ∈ h.freeBlocks) ∧
      saturatingAdd size ((h.free.get (o + size)).getD 0) = hi - o ∧ hi ≤ u32Max := by
  have inside := s.pool.inside (o, size) (.inl ⟨n, mem⟩)
  have within := s.within
  have limit := s.limit
  dsimp only at inside
  cases next : h.free.get (o + size) with
  | none =>
    refine ⟨o + size, .inl ⟨rfl, fun f hf same => ?_⟩, ?_, by omega⟩
    · obtain ⟨fo, k⟩ := f
      subst same
      rw [(Blocks.get_eq_some s.freeSorted).mpr hf] at next
      cases next
    · rw [Option.getD_none]
      unfold saturatingAdd
      omega
  | some k =>
    have hf : (o + size, k) ∈ h.freeBlocks := (Blocks.get_eq_some s.freeSorted).mp next
    have pos := s.pool.pos _ (.inr hf)
    have behind := s.pool.inside _ (.inr hf)
    dsimp only at pos behind
    refine ⟨o + size + k, .inr ⟨by omega, ?_⟩, ?_, by omega⟩
    · rw [Nat.add_sub_cancel_left]
      exact hf
    · rw [Option.getD_some]
      unfold saturatingAdd
      omega

/-- Freeing frees the used block that starts at the offset, if there is one. -/
lemma Sound.release (s : h.Sound) (o : Nat) :
    (∃ size n h', (o, (size, n)) ∈ h.used ∧ h.release o = some h' ∧ h.Released o h' ∧ h'.Sound) ∨
      h.release o = none ∧ ∀ b ∈ h.used, b.1 ≠ o := by
  unfold Heap.release
  cases found : h.used.get o with
  | none =>
    refine .inr ⟨rfl, fun b mem same => ?_⟩
    obtain ⟨bo, v⟩ := b
    subst same
    rw [(Blocks.get_eq_some s.usedSorted).mpr mem] at found
    cases found
  | some block =>
    obtain ⟨size, n⟩ := block
    have mem := (Blocks.get_eq_some s.usedSorted).mp found
    have used : (o, size) ∈ h.usedBlocks := ⟨n, mem⟩
    have inside := s.pool.inside _ (.inl used)
    have positive := s.pool.pos _ (.inl used)
    have within := s.within
    have limit := s.limit
    dsimp only at inside positive
    have sum : checkedAdd o size = some (o + size) := checkedAdd_eq_some.mpr ⟨by omega, rfl⟩
    simp only [Option.bind_eq_bind, Option.bind_some, sum]
    -- First the free block behind is taken out, then one in front is sought among the others.
    generalize dropped :
      (if (h.free.get (o + size)).isSome then h.free.remove (o + size) else h.free) = free
    have rest (f : Nat × Nat) : f ∈ free ↔ f ∈ h.free ∧ f.1 ≠ o + size := by
      rw [← dropped]
      exact Blocks.mem_dropped s.freeSorted
    have sorted : free.Sorted := dropped ▸ s.freeSorted.dropped
    obtain ⟨hi, back, len, top⟩ := s.back mem
    rw [len]
    generalize found' :
      ((free.below o).filter fun b => decide (checkedAdd b.1 b.2 = some o)) = before
    cases before with
    -- A free block ends where this one starts: both become one.
    | some b =>
      obtain ⟨lo, k⟩ := b
      obtain ⟨below, ends⟩ := Option.filter_eq_some_iff.mp found'
      obtain ⟨hb, lt, -⟩ := Blocks.below_eq_some sorted below
      obtain ⟨-, join⟩ := checkedAdd_eq_some.mp (of_decide_eq_true ends)
      have hf : (lo, k) ∈ h.freeBlocks := ((rest _).mp hb).1
      dsimp only at lt join
      have front : (lo, o - lo) ∈ h.freeBlocks := by
        rw [show o - lo = k by omega]
        exact hf
      have total : saturatingAdd (hi - o) k = hi - lo := by
        unfold saturatingAdd
        omega
      dsimp only
      rw [total]
      refine .inl ⟨size, n, _, mem, rfl, ⟨rfl, rfl, rfl⟩, ?_⟩
      refine s.giveBack mem (.inr ⟨lt, front⟩) back ⟨rfl, rfl, rfl⟩ sorted.remove.insert fun f => ?_
      refine (Blocks.mem_insert sorted.remove).trans (or_congr_right ?_)
      rw [Blocks.mem_remove, rest, and_assoc, and_self, and_assoc]
      refine and_congr_right fun kept => and_congr_right fun _ =>
        not_congr ⟨fun start => ?_, fun finish => ?_⟩
      · rw [s.pool.eq_of_start (.inr kept) (.inr hf) start]
        exact join
      · have pos := s.pool.pos f (.inr kept)
        have same := s.pool.eq_of_in (i := o - 1) (.inr kept) (.inr hf) ⟨by omega, by omega⟩
          ⟨by dsimp only; omega, by dsimp only; omega⟩
        rw [same]
    | none =>
      -- The nearest block in front does not end here, so none does: free blocks do not overlap.
      have none : ∀ f ∈ h.freeBlocks, f.1 + f.2 ≠ o := by
        intro f hf finish
        have pos := s.pool.pos f (.inr hf)
        have listed : f ∈ free := (rest f).mpr ⟨hf, by omega⟩
        cases below : free.below o with
        | none =>
          have := Blocks.below_eq_none below f listed
          omega
        | some g =>
          obtain ⟨hg, lt, last⟩ := Blocks.below_eq_some sorted below
          have le := last f listed (by omega)
          have same := s.pool.eq_of_in (i := g.1) (.inr hf) (.inr ((rest g).mp hg).1) ⟨le, by omega⟩
            ⟨Nat.le_refl _, Nat.lt_add_of_pos_right (s.pool.pos g (.inr ((rest g).mp hg).1))⟩
          rw [below, Option.filter_some, ← same, checkedAdd_eq_some.mpr ⟨by omega, finish⟩,
            if_pos (decide_eq_true rfl)] at found'
          cases found'
      have fresh : ∀ f ∈ free, f.1 ≠ o := by
        intro f hf start
        have kept := ((rest f).mp hf).1
        have same := s.pool.eq_of_start (.inr kept) (.inl used) start
        exact s.pool.disjoint _ used (same ▸ kept)
      dsimp only
      refine .inl ⟨size, n, _, mem, rfl, ⟨rfl, rfl, rfl⟩, ?_⟩
      refine s.giveBack mem (.inl ⟨rfl, none⟩) back ⟨rfl, rfl, rfl⟩ sorted.insert fun f => ?_
      refine (Blocks.mem_insert sorted).trans (or_congr_right ⟨fun hf => ?_, fun kept => ?_⟩)
      · obtain ⟨kept, start⟩ := (rest f).mp hf.1
        exact ⟨kept, start, none f kept⟩
      · have hf := (rest f).mpr ⟨kept.1, kept.2.1⟩
        exact ⟨hf, fresh f hf⟩

/-! ## Moving -/

/-- What moving the block of `m` bytes at `old` to one of `n` bytes at `o` does: the first bytes of
the old block, as many as both hold, are at the start of the new one, whose other bytes are zero. -/
structure Moved (h : Heap) (old m n o size : Nat) (h' : Heap) : Prop where
  rounded : roundUp n = some size
  used : ∀ b, b ∈ h'.used ↔ (b = (o, (size, n)) ∨ b ∈ h.used) ∧ b.1 ≠ old
  fresh : ∀ b ∈ h.usedBlocks, BlocksApart b (o, size)
  inside : o + size ≤ h'.data.size
  copied : ∀ i < min m n, h'.data.get (o + i) = h.data.get (old + i)
  zero : ∀ i < size, min m n ≤ i → h'.data.get (o + i) = 0
  kept : ∀ b ∈ h.usedBlocks, ∀ i, InBlock b i → h'.data.get i = h.data.get i
  max : h'.max = h.max

/-- Bytes written inside the region keep the blocks. -/
lemma Sound.withData (s : h.Sound) {data : Arr Byte} (size : data.size = h.data.size) :
    { h with data := data }.Sound :=
  ⟨s.usedSorted, s.freeSorted, size ▸ s.pool, s.aligned, s.rounded, size ▸ s.within, s.limit⟩

/-- A block is moved by allocating another, copying what both hold, and freeing it. -/
lemma Sound.moved (s : h.Sound) {old os m n o size : Nat} {g : Heap} {data : Arr Byte}
    (mem : (old, (os, m)) ∈ h.used) (a : h.Allocated n o size g)
    (copied : g.data.copyWithin old o (min m n) = data)
    (released : Released { g with data := data } old h') : h.Moved old m n o size h' := by
  have block : (old, os) ∈ h.usedBlocks := ⟨m, mem⟩
  have length : data.size = g.data.size := copied ▸ rfl
  have hold := (roundUp_eq_some (s.rounded _ _ _ mem)).1
  have fits := (roundUp_eq_some a.rounded).1
  have inside := a.inside
  have before := s.pool.inside _ (.inl block)
  have away {i : Nat} (out : i < o ∨ o + min m n ≤ i) : h'.data.get i = g.data.get i := by
    rw [released.data, ← copied]
    exact Arr.get_copyWithin_of_outside out
  refine ⟨a.rounded, fun b => ?_, a.fresh, ?_, fun i lt => ?_, fun i lt le => ?_, ?_, ?_⟩
  · rw [released.used, Blocks.mem_remove]
    exact and_congr_left fun _ => a.used b
  · rw [released.data, length]
    exact inside
  · rw [released.data, ← copied, Arr.get_copyWithin, if_pos, Nat.add_sub_cancel_left]
    · exact a.kept _ block _ ⟨Nat.le_add_right _ _, by dsimp only; omega⟩
    · dsimp only at before
      have := a.grows
      omega
  · rw [away (.inr (by omega))]
    exact a.zero _ ⟨Nat.le_add_right _ _, Nat.add_lt_add_left lt o⟩
  · intro b hb i lies
    have out := (a.fresh b hb).not_in lies
    unfold InBlock at out
    rw [away (by dsimp only at out; omega)]
    exact a.kept b hb i lies
  · exact released.max.trans a.max

/-- Resizing a block moves it, or fails and leaves the heap alone. -/
lemma Sound.realloc (s : h.Sound) (old n : Nat) :
    (∃ m os o size h', (old, (os, m)) ∈ h.used ∧ h.realloc (some old) n = (some o, h') ∧
        h.Moved old m n o size h' ∧ h'.Sound) ∨
      h.realloc (some old) n = (none, h) ∧ ((∀ b ∈ h.used, b.1 ≠ old) ∨ h.Full n) := by
  unfold Heap.realloc blockSize
  dsimp only
  cases found : h.used.get old with
  | none =>
    refine .inr ⟨rfl, .inl fun b mem same => ?_⟩
    obtain ⟨bo, v⟩ := b
    subst same
    rw [(Blocks.get_eq_some s.usedSorted).mpr mem] at found
    cases found
  | some block =>
    obtain ⟨os, m⟩ := block
    have mem := (Blocks.get_eq_some s.usedSorted).mp found
    dsimp only [Option.map_some]
    rcases s.alloc n with ⟨o, size, g, taken, a, sound⟩ | ⟨failed, full⟩
    · rw [taken]
      dsimp only
      generalize copied : g.data.copyWithin old o (min m n) = data
      have length : data.size = g.data.size := copied ▸ rfl
      have sound' : { g with data := data }.Sound := sound.withData length
      have held : (old, (os, m)) ∈ g.used := (a.used _).mpr (.inr mem)
      rcases sound'.release old with ⟨_, _, h', -, gone, released, sound''⟩ | ⟨-, missing⟩
      · rw [gone]
        exact .inl ⟨m, os, o, size, h', mem, rfl, s.moved mem a copied released, sound''⟩
      · exact absurd rfl (missing _ held)
    · rw [failed]
      exact .inr ⟨rfl, .inr full⟩

/-! ## Runs -/

end Heap

/-- What is done to a heap: its blocks are allocated, freed and resized, and its bytes written. -/
inductive HeapOp where
  | alloc (n : Nat)
  | free (offset : Nat)
  | realloc (offset : Option Nat) (n : Nat)
  | write (offset : Nat) (bytes : List Byte)

namespace Heap

variable {h : Heap}

/-- The heap after an operation. -/
def apply (h : Heap) : HeapOp → Heap
  | .alloc n => (h.alloc n).2
  | .free offset => (h.release offset).getD h
  | .realloc offset n => (h.realloc offset n).2
  | .write offset bytes => { h with data := h.data.write offset bytes }

/-- The heap after a sequence of operations. -/
def run (h : Heap) (ops : List HeapOp) : Heap := ops.foldl apply h

/-- An operation keeps the heap sound. -/
lemma Sound.apply (s : h.Sound) (op : HeapOp) : (h.apply op).Sound := by
  cases op with
  | alloc n =>
    rcases s.alloc n with ⟨_, _, _, e, -, sound⟩ | ⟨e, -⟩
    · simp only [Heap.apply, e]
      exact sound
    · simp only [Heap.apply, e]
      exact s
  | free offset =>
    rcases s.release offset with ⟨_, _, _, -, e, -, sound⟩ | ⟨e, -⟩
    · simp only [Heap.apply, e, Option.getD_some]
      exact sound
    · simp only [Heap.apply, e, Option.getD_none]
      exact s
  | realloc offset n =>
    cases offset with
    | none => exact Sound.apply s (.alloc n)
    | some old =>
      rcases s.realloc old n with ⟨_, _, _, _, _, -, e, -, sound⟩ | ⟨e, -⟩
      · simp only [Heap.apply, e]
        exact sound
      · simp only [Heap.apply, e]
        exact s
  | write offset bytes => exact s.withData rfl

/-- A run keeps the heap sound. -/
lemma Sound.run (s : h.Sound) (ops : List HeapOp) : (h.run ops).Sound := by
  induction ops generalizing h with
  | nil => exact s
  | cons op rest ih => exact ih (s.apply op)

/-- Every sequence of operations keeps a heap sound. -/
lemma sound_run (max : Word) (ops : List HeapOp) : ((new max.toNat).run ops).Sound :=
  (sound_new _ (by unfold u32Max; omega)).run ops

/-- **The heap is a pool of blocks.** -/
theorem blocks_correct (max : Word) (ops : List HeapOp) :
    let h := (new max.toNat).run ops
    h.Sound ∧
    (∀ n, (∃ o size h', h.alloc n = (some o, h') ∧ h.Allocated n o size h') ∨
      h.alloc n = (none, h)) ∧
    (∀ o, (∃ h', (∃ b ∈ h.used, b.1 = o) ∧ h.release o = some h' ∧ h.Released o h') ∨
      (∀ b ∈ h.used, b.1 ≠ o) ∧ h.release o = none ∧ h.apply (.free o) = h) ∧
    (∀ n, h.realloc none n = h.alloc n) ∧
    ∀ old n, (∃ m os o size h', (old, (os, m)) ∈ h.used ∧ h.realloc (some old) n = (some o, h') ∧
        h.Moved old m n o size h') ∨
      h.realloc (some old) n = (none, h) := by
  intro h
  have s : h.Sound := sound_run max ops
  refine ⟨s, fun n => ?_, fun o => ?_, fun n => rfl, fun old n => ?_⟩
  · rcases s.alloc n with ⟨o, size, h', e, a, -⟩ | ⟨e, -⟩
    · exact .inl ⟨o, size, h', e, a⟩
    · exact .inr e
  · rcases s.release o with ⟨size, n, h', mem, e, released, -⟩ | ⟨e, missing⟩
    · exact .inl ⟨h', ⟨_, mem, rfl⟩, e, released⟩
    · refine .inr ⟨missing, e, ?_⟩
      simp only [Heap.apply, e, Option.getD_none]
  · rcases s.realloc old n with ⟨m, os, o, size, h', mem, e, moved, -⟩ | ⟨e, -⟩
    · exact .inl ⟨m, os, o, size, h', mem, e, moved⟩
    · exact .inr e

/-! ## When an allocation fails -/

/-- An aligned run of the bytes that `n` bytes need, inside the limit and met by no used block. -/
def Run (h : Heap) (n o size : Nat) : Prop :=
  roundUp n = some size ∧ heapAlign ∣ o ∧ o + size ≤ h.max ∧
    ∀ u ∈ h.usedBlocks, BlocksApart u (o, size)

/-- An allocation fails exactly when every such run crosses the end of the region. -/
lemma Sound.fails_iff (s : h.Sound) (n : Nat) : (h.alloc n).1 = none ↔
    ∀ o size, h.Run n o size → o < h.data.size ∧ h.data.size < o + size := by
  rcases s.alloc n with ⟨o, size, h', e, a, sound⟩ | ⟨e, full⟩
  · rw [e]
    refine ⟨fun none => absurd none (Option.some_ne_none o), fun crosses => ?_⟩
    have within := sound.within
    have inside := a.inside
    rw [a.max] at within
    have block : (o, size) ∈ h'.usedBlocks := ⟨n, (a.used _).mpr (.inl rfl)⟩
    have start := (sound.aligned _ (.inl block)).1
    have cross := crosses o size ⟨a.rounded, start, by omega, a.fresh⟩
    rcases a.placed with left | right
    · omega
    · omega
  · rw [e]
    refine ⟨fun _ o size run => ?_, fun _ => rfl⟩
    obtain ⟨rounded, -, within, clear⟩ := run
    obtain ⟨small, room⟩ := full size rounded
    have lt : o < h.data.size := by omega
    refine ⟨lt, ?_⟩
    obtain ⟨f, hf, lies, fits | finish⟩ := s.pool.run_inside lt clear (roundUp_eq_some rounded).2.1
    · have less := small f hf
      have front := lies.1
      omega
    · have less := small f hf
      have front := lies.1
      omega

/-- **An allocation fails exactly when every run with room for it crosses the region's end.** -/
theorem allocate_fails_iff (max : Word) (ops : List HeapOp) (n : Nat) :
    let h := (new max.toNat).run ops
    (h.alloc n).1 = none ↔
      ∀ o size, h.Run n o size → o < h.data.size ∧ h.data.size < o + size :=
  (sound_run max ops).fails_iff n

/-- A free block at the end of the region and the bytes behind it would do together. -/
theorem allocate_incomplete : ¬ ∀ (max : Word) (ops : List HeapOp) (n : Nat),
    let h := (new max.toNat).run ops
    (h.alloc n).1 = none → ¬ ∃ o size, h.Run n o size := by
  intro claim
  refine claim 64 [.alloc 16, .alloc 16, .free 16] 48 (by decide +kernel) ⟨16, 48, ?_⟩
  refine ⟨by decide +kernel, by decide, by decide +kernel, ?_⟩
  rintro ⟨o, s⟩ ⟨n, mem⟩
  have used : ((new (64 : Word).toNat).run [.alloc 16, .alloc 16, .free 16]).used =
      [(0, (16, 16))] := by
    decide +kernel
  rw [used] at mem
  cases List.mem_singleton.mp mem
  exact .inl (by decide)

end Heap

end Qcvm
