import Mathlib.Data.Set.Insert
import Mathlib.Algebra.Order.Ring.Nat
import Mathlib.Tactic.Common

/-!
# Tilings of an interval

Blocks of natural numbers, given as start and length, that cut an interval into pieces, as an
allocator cuts its region. A tiling is refined by splitting a block (`Tiles.split`), coarsened by
joining neighbours (`Tiles.coarsen`) and extended at its end (`Tiles.extend`). In a `Pool` every
block is used or free and no two free blocks are neighbours (`Pool.join` keeps it so), so a run of
bytes that no used block meets lies in one free block or reaches the end (`Pool.run_inside`).
-/

namespace Qcvm.Lib

/-- The number lies in the block. -/
def InBlock (b : Nat × Nat) (i : Nat) : Prop := b.1 ≤ i ∧ i < b.1 + b.2

/-- Two blocks share no number. -/
def BlocksApart (b c : Nat × Nat) : Prop := b.1 + b.2 ≤ c.1 ∨ c.1 + c.2 ≤ b.1

/-- The blocks cut the numbers below `n` into pieces. -/
structure Tiles (B : Set (Nat × Nat)) (n : Nat) : Prop where
  pos : ∀ b ∈ B, 0 < b.2
  inside : ∀ b ∈ B, b.1 + b.2 ≤ n
  apart : ∀ b ∈ B, ∀ c ∈ B, b ≠ c → BlocksApart b c
  covers : ∀ i < n, ∃ b ∈ B, InBlock b i

/-- Used and free blocks cut the numbers below `n` into pieces, and free neighbours are joined. -/
structure Pool (U F : Set (Nat × Nat)) (n : Nat) : Prop extends Tiles (U ∪ F) n where
  disjoint : ∀ b ∈ U, b ∉ F
  joined : ∀ b ∈ F, ∀ c ∈ F, b.1 + b.2 ≠ c.1

variable {B U F : Set (Nat × Nat)} {n : Nat} {b c : Nat × Nat}

lemma BlocksApart.symm (h : BlocksApart b c) : BlocksApart c b := Or.symm h

/-- Numbers in blocks that are apart differ. -/
lemma BlocksApart.not_in {i : Nat} (h : BlocksApart b c) (lies : InBlock b i) : ¬ InBlock c i := by
  unfold BlocksApart InBlock at *
  omega

namespace Tiles

/-- Nothing cuts nothing. -/
lemma empty : Tiles ∅ 0 where
  pos _ mem := absurd mem (Set.notMem_empty _)
  inside _ mem := absurd mem (Set.notMem_empty _)
  apart _ mem := absurd mem (Set.notMem_empty _)
  covers _ lt := absurd lt (Nat.not_lt_zero _)

/-- Blocks that share a number are one. -/
lemma eq_of_in {i : Nat} (t : Tiles B n) (hb : b ∈ B) (hc : c ∈ B) (lies : InBlock b i)
    (lies' : InBlock c i) : b = c := by
  by_contra ne
  exact (t.apart b hb c hc ne).not_in lies lies'

/-- Blocks with one start are one. -/
lemma eq_of_start (t : Tiles B n) (hb : b ∈ B) (hc : c ∈ B) (start : b.1 = c.1) : b = c := by
  have := t.pos b hb
  have := t.pos c hc
  refine t.eq_of_in (i := b.1) hb hc ⟨Nat.le_refl _, ?_⟩ ⟨start.symm.le, ?_⟩
  · omega
  · omega

/-- Behind a block that does not end the tiling comes another. -/
lemma next (t : Tiles B n) (hb : b ∈ B) (lt : b.1 + b.2 < n) : ∃ c ∈ B, c.1 = b.1 + b.2 := by
  obtain ⟨c, hc, lo, hi⟩ := t.covers _ lt
  refine ⟨c, hc, ?_⟩
  by_contra ne
  have pos := t.pos b hb
  have same : c = b := by
    refine t.eq_of_in (i := b.1 + b.2 - 1) hc hb ⟨?_, ?_⟩ ⟨?_, ?_⟩ <;> omega
  rw [same] at hi
  omega

/-- Blocks that lie in one are replaced by it. -/
lemma coarsen {R : Set (Nat × Nat)} (t : Tiles B n) (pos : 0 < b.2) (inside : b.1 + b.2 ≤ n)
    (parts : ∀ r ∈ B, r ∈ R → b.1 ≤ r.1 ∧ r.1 + r.2 ≤ b.1 + b.2)
    (others : ∀ r ∈ B, r ∉ R → BlocksApart b r) : Tiles (insert b (B \ R)) n where
  pos := by
    rintro c (rfl | ⟨hc, -⟩)
    · exact pos
    · exact t.pos c hc
  inside := by
    rintro c (rfl | ⟨hc, -⟩)
    · exact inside
    · exact t.inside c hc
  apart := by
    rintro c (rfl | ⟨hc, kept⟩) d (rfl | ⟨hd, kept'⟩) ne
    · exact absurd rfl ne
    · exact others d hd kept'
    · exact (others c hc kept).symm
    · exact t.apart c hc d hd ne
  covers := by
    intro i lt
    obtain ⟨c, hc, lies⟩ := t.covers i lt
    by_cases gone : c ∈ R
    · refine ⟨b, Set.mem_insert _ _, ?_⟩
      obtain ⟨lo, hi⟩ := parts c hc gone
      unfold InBlock at *
      omega
    · exact ⟨c, Set.mem_insert_of_mem _ ⟨hc, gone⟩, lies⟩

/-- A block is split in two. -/
lemma split {k : Nat} (t : Tiles B n) (hb : b ∈ B) (pos : 0 < k) (lt : k < b.2) :
    Tiles (insert (b.1, k) (insert (b.1 + k, b.2 - k) (B \ {b}))) n := by
  have inside := t.inside b hb
  have away : ∀ c ∈ B, c ≠ b → BlocksApart (b.1, k) c ∧ BlocksApart (b.1 + k, b.2 - k) c := by
    intro c hc ne
    have apart := t.apart c hc b hb ne
    unfold BlocksApart at *
    dsimp only
    omega
  have parts : BlocksApart (b.1, k) (b.1 + k, b.2 - k) := .inl (Nat.le_refl _)
  refine ⟨?_, ?_, ?_, ?_⟩
  · rintro c (rfl | rfl | ⟨hc, -⟩)
    · exact pos
    · exact Nat.sub_pos_of_lt lt
    · exact t.pos c hc
  · rintro c (rfl | rfl | ⟨hc, -⟩)
    · dsimp only
      omega
    · dsimp only
      omega
    · exact t.inside c hc
  · rintro c (rfl | rfl | ⟨hc, kept⟩) d (rfl | rfl | ⟨hd, kept'⟩) ne
    · exact absurd rfl ne
    · exact parts
    · exact (away d hd kept').1
    · exact parts.symm
    · exact absurd rfl ne
    · exact (away d hd kept').2
    · exact (away c hc kept).1.symm
    · exact (away c hc kept).2.symm
    · exact t.apart c hc d hd ne
  · intro i lt
    obtain ⟨c, hc, lies⟩ := t.covers i lt
    by_cases same : c = b
    · subst same
      unfold InBlock at lies
      by_cases front : i < c.1 + k
      · exact ⟨(c.1, k), Set.mem_insert _ _, lies.1, front⟩
      · refine ⟨(c.1 + k, c.2 - k), Set.mem_insert_of_mem _ (Set.mem_insert _ _), ?_, ?_⟩
        · exact Nat.le_of_not_lt front
        · dsimp only
          omega
    · exact ⟨c, Set.mem_insert_of_mem _ (Set.mem_insert_of_mem _ ⟨hc, same⟩), lies⟩

/-- A block is added at the end. -/
lemma extend {k : Nat} (t : Tiles B n) (pos : 0 < k) : Tiles (insert (n, k) B) (n + k) where
  pos := by
    rintro c (rfl | hc)
    · exact pos
    · exact t.pos c hc
  inside := by
    rintro c (rfl | hc)
    · exact Nat.le_refl _
    · exact Nat.le_trans (t.inside c hc) (Nat.le_add_right _ _)
  apart := by
    rintro c (rfl | hc) d (rfl | hd) ne
    · exact absurd rfl ne
    · exact .inr (t.inside d hd)
    · exact .inl (t.inside c hc)
    · exact t.apart c hc d hd ne
  covers := by
    intro i lt
    by_cases old : i < n
    · obtain ⟨c, hc, lies⟩ := t.covers i old
      exact ⟨c, Set.mem_insert_of_mem _ hc, lies⟩
    · exact ⟨(n, k), Set.mem_insert _ _, Nat.le_of_not_lt old, lt⟩

end Tiles

namespace Pool

/-- A free block becomes a used one. -/
lemma take (p : Pool U F n) (hb : b ∈ F) : Pool (insert b U) (F \ {b}) n where
  toTiles := by
    have same : insert b U ∪ F \ {b} = U ∪ F := by
      ext c
      simp only [Set.mem_union, Set.mem_insert_iff, Set.mem_sdiff, Set.mem_singleton_iff]
      by_cases e : c = b
      · simp [e, hb]
      · simp [e]
    rw [same]
    exact p.toTiles
  disjoint := by
    rintro c (rfl | hc) ⟨free, ne⟩
    · exact ne rfl
    · exact p.disjoint c hc free
  joined c hc d hd := p.joined c hc.1 d hd.1

/-- The front of a free block becomes a used one. -/
lemma takeFront {k : Nat} (p : Pool U F n) (hb : b ∈ F) (pos : 0 < k) (lt : k < b.2) :
    Pool (insert (b.1, k) U) (insert (b.1 + k, b.2 - k) (F \ {b})) n where
  toTiles := by
    have unused : b ∉ U := fun used => p.disjoint b used hb
    have same : insert (b.1, k) U ∪ insert (b.1 + k, b.2 - k) (F \ {b})
        = insert (b.1, k) (insert (b.1 + k, b.2 - k) ((U ∪ F) \ {b})) := by
      ext c
      simp only [Set.mem_union, Set.mem_insert_iff, Set.mem_sdiff, Set.mem_singleton_iff]
      by_cases e : c = b
      · subst e
        simp [unused]
      · simp only [e, not_false_eq_true, and_true]
        tauto
    rw [same]
    exact p.split (.inr hb) pos lt
  disjoint := by
    have inside (c : Nat × Nat) (hc : c ∈ U ∪ F) (ne : c ≠ b) := p.apart c hc b (.inr hb) ne
    unfold BlocksApart at inside
    rintro c (rfl | hc) (e | ⟨free, ne⟩)
    · rw [Prod.mk.injEq] at e
      omega
    · have := p.eq_of_start (.inr free) (.inr hb) rfl
      exact ne this
    · have ne : c ≠ b := fun e => p.disjoint c hc (e ▸ hb)
      have apart := inside c (.inl hc) ne
      have positive := p.pos c (.inl hc)
      rw [e] at apart positive
      dsimp only at apart positive
      omega
    · exact p.disjoint c hc free
  joined := by
    have away (c : Nat × Nat) (hc : c ∈ F) (ne : c ≠ b) := p.apart c (.inr hc) b (.inr hb) ne
    unfold BlocksApart at away
    rintro c (rfl | ⟨hc, ne⟩) d (rfl | ⟨hd, ne'⟩) e
    · dsimp only at e
      omega
    · refine p.joined b hb d hd ?_
      dsimp only at e
      omega
    · have apart := away c hc ne
      have positive := p.pos c (.inr hc)
      dsimp only at e
      omega
    · exact p.joined c hc d hd e

/-- A used block is added at the end. -/
lemma extend {k : Nat} (p : Pool U F n) (pos : 0 < k) : Pool (insert (n, k) U) F (n + k) where
  toTiles := by
    rw [Set.insert_union]
    exact p.toTiles.extend pos
  disjoint := by
    rintro c (rfl | hc) free
    · have inside := p.inside _ (.inr free)
      dsimp only at inside
      omega
    · exact p.disjoint c hc free
  joined := p.joined

/-- A used block becomes free, joined with its free neighbours: `R` are those it is joined with. -/
lemma give {R : Set (Nat × Nat)} {s : Nat × Nat} (p : Pool U F n) (hb : b ∈ U) (free : R ⊆ F)
    (lo : s.1 ≤ b.1) (hi : b.1 + b.2 ≤ s.1 + s.2) (inside : s.1 + s.2 ≤ n)
    (parts : ∀ r ∈ R, s.1 ≤ r.1 ∧ r.1 + r.2 ≤ s.1 + s.2)
    (others : ∀ r ∈ U ∪ F, r ≠ b → r ∉ R → BlocksApart s r)
    (before : ∀ c ∈ F, c ∉ R → c.1 + c.2 ≠ s.1) (behind : ∀ c ∈ F, c ∉ R → s.1 + s.2 ≠ c.1) :
    Pool (U \ {b}) (insert s (F \ R)) n where
  toTiles := by
    have unused (c : Nat × Nat) (hc : c ∈ R) : c ∉ U := fun used => p.disjoint c used (free hc)
    have same : U \ {b} ∪ insert s (F \ R) = insert s ((U ∪ F) \ insert b R) := by
      ext c
      simp only [Set.mem_union, Set.mem_insert_iff, Set.mem_sdiff, Set.mem_singleton_iff]
      have := unused c
      have := p.disjoint b hb
      by_cases e : c = b
      · subst e
        tauto
      · tauto
    have pos := p.pos b (.inl hb)
    rw [same]
    refine p.coarsen (by omega) inside (fun r _ hr => ?_) fun r hr kept => ?_
    · rcases hr with rfl | hr
      · exact ⟨lo, hi⟩
      · exact parts r hr
    · refine others r hr (fun e => kept (.inl e)) fun hr => kept (.inr hr)
  disjoint := by
    have pos := p.pos b (.inl hb)
    rintro c ⟨hc, ne⟩ (rfl | ⟨hf, -⟩)
    · have same := p.eq_of_in (i := b.1) (.inl hc) (.inl hb) ⟨lo, by omega⟩
        ⟨Nat.le_refl _, by omega⟩
      exact ne same
    · exact p.disjoint c hc hf
  joined := by
    have pos := p.pos b (.inl hb)
    rintro c (rfl | ⟨hc, kept⟩) d (rfl | ⟨hd, kept'⟩)
    · omega
    · exact behind d hd kept'
    · exact before c hc kept
    · exact p.joined c hc d hd

/-- A used block becomes free and is joined with the free block that ends where it starts, and with
the one that starts where it ends. -/
lemma join {lo hi : Nat} (p : Pool U F n) (hb : b ∈ U)
    (front : lo = b.1 ∧ (∀ f ∈ F, f.1 + f.2 ≠ b.1) ∨ lo < b.1 ∧ (lo, b.1 - lo) ∈ F)
    (back : hi = b.1 + b.2 ∧ (∀ f ∈ F, f.1 ≠ b.1 + b.2) ∨
      b.1 + b.2 < hi ∧ (b.1 + b.2, hi - (b.1 + b.2)) ∈ F) :
    Pool (U \ {b})
      (insert (lo, hi - lo) (F \ { f | f ∈ F ∧ (f.1 = b.1 + b.2 ∨ f.1 + f.2 = b.1) })) n := by
  have pos := p.pos b (.inl hb)
  have inside := p.inside b (.inl hb)
  have le : lo ≤ b.1 := by
    rcases front with ⟨e, -⟩ | ⟨lt, -⟩
    · exact e.le
    · exact lt.le
  have ge : b.1 + b.2 ≤ hi := by
    rcases back with ⟨e, -⟩ | ⟨lt, -⟩
    · exact e.ge
    · exact lt.le
  refine p.give hb (fun f hf => hf.1) le (by dsimp only; omega) ?_ ?_ ?_ ?_ ?_
  · rcases back with ⟨e, -⟩ | ⟨lt, hf⟩
    · dsimp only
      omega
    · have := p.inside _ (.inr hf)
      dsimp only at this ⊢
      omega
  · rintro r ⟨hr, start | finish⟩
    · rcases back with ⟨-, none⟩ | ⟨lt, hf⟩
      · exact absurd start (none r hr)
      · have same := p.eq_of_start (.inr hr) (.inr hf) start
        rw [same]
        dsimp only
        omega
    · rcases front with ⟨-, none⟩ | ⟨lt, hf⟩
      · exact absurd finish (none r hr)
      · have positive := p.pos r (.inr hr)
        have same := p.eq_of_in (i := b.1 - 1) (.inr hr) (.inr hf) ⟨by omega, by omega⟩
          ⟨by dsimp only; omega, by dsimp only; omega⟩
        rw [same]
        dsimp only
        omega
  · intro r hr ne kept
    have apart := p.apart r hr b (.inl hb) ne
    have front' : BlocksApart (lo, b.1 - lo) r := by
      rcases front with ⟨rfl, -⟩ | ⟨lt, hf⟩
      · unfold BlocksApart at *
        dsimp only
        omega
      · refine p.apart _ (.inr hf) r hr fun e => kept ?_
        rw [← e]
        exact ⟨hf, .inr (by dsimp only; omega)⟩
    have back' : BlocksApart (b.1 + b.2, hi - (b.1 + b.2)) r := by
      rcases back with ⟨rfl, -⟩ | ⟨lt, hf⟩
      · unfold BlocksApart at *
        dsimp only
        omega
      · refine p.apart _ (.inr hf) r hr fun e => kept ?_
        rw [← e]
        exact ⟨hf, .inl rfl⟩
    have positive := p.pos r hr
    unfold BlocksApart at *
    dsimp only at *
    omega
  · intro c hc kept e
    rcases front with ⟨rfl, none⟩ | ⟨lt, hf⟩
    · exact none c hc e
    · exact p.joined c hc _ hf e
  · intro c hc kept e
    rcases back with ⟨rfl, none⟩ | ⟨lt, hf⟩
    · refine none c hc ?_
      dsimp only at e
      omega
    · refine p.joined _ hf c hc ?_
      dsimp only at e ⊢
      omega

/-- A run that starts below the end and that no used block meets starts in a free block, and lies in
it or passes the end with it. -/
lemma run_inside {o k : Nat} (p : Pool U F n) (lt : o < n)
    (clear : ∀ u ∈ U, BlocksApart u (o, k)) (pos : 0 < k) :
    ∃ f ∈ F, InBlock f o ∧ (o + k ≤ f.1 + f.2 ∨ f.1 + f.2 = n) := by
  have unused {c : Nat × Nat} {i : Nat} (hc : c ∈ U ∪ F) (lies : InBlock c i) (lo : o ≤ i)
      (hi : i < o + k) : c ∈ F := by
    rcases hc with used | free
    · have apart := clear c used
      unfold BlocksApart InBlock at *
      dsimp only at apart
      omega
    · exact free
  obtain ⟨f, hf, lies⟩ := p.covers o lt
  have free := unused hf lies (Nat.le_refl _) (by omega)
  refine ⟨f, free, lies, ?_⟩
  by_contra more
  have inside := p.inside f hf
  obtain ⟨c, hc, start⟩ := p.next hf (by omega)
  have positive := p.pos c hc
  have lo := lies.2
  refine p.joined f free c (unused (i := c.1) hc ⟨Nat.le_refl _, by omega⟩ ?_ ?_) start.symm
  · omega
  · omega

end Pool

end Qcvm.Lib
