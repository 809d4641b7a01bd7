import Mathlib

/-!
# Tilings of a region by blocks

A block is a header of `hdr` bytes at `addr` with `size` bytes behind it. `Tiles hdr a bs e`: the blocks lie one behind the
other and fill `[a, e)`. An allocator `carve`s a free block, and lets a freed one `absorb` the free block behind it; with no
two free blocks side by side (`Apart`) that happens once on each side.
-/
namespace PureUnix.Lib

open List

structure Block where
  addr : Nat
  size : Nat
  free : Bool
  deriving DecidableEq, Repr

def Tiles (hdr : Nat) : Nat → List Block → Nat → Prop
  | a, [], e => a = e
  | a, b :: bs, e => b.addr = a ∧ Tiles hdr (a + hdr + b.size) bs e

/-- No two neighbours are both free. -/
def Apart (bs : List Block) : Prop := bs.IsChain fun b c => ¬ (b.free ∧ c.free)

/-- What lies behind the headers of the blocks in use. -/
def usedPayloads (hdr : Nat) (bs : List Block) : List Nat := (bs.filter (!·.free)).map (·.addr + hdr)

variable {hdr a e : Nat} {b c : Block} {l m m' bs : List Block}

namespace Tiles

theorem append_iff : ∀ {l : List Block} {a : Nat}, Tiles hdr a (l ++ m) e ↔ ∃ z, Tiles hdr a l z ∧ Tiles hdr z m e
  | [], a => by simp [Tiles]
  | b :: l, a => by
    simp only [cons_append, Tiles, append_iff]
    constructor
    · rintro ⟨ha, z, h1, h2⟩
      exact ⟨z, ⟨ha, h1⟩, h2⟩
    · rintro ⟨z, ⟨ha, h1⟩, h2⟩
      exact ⟨ha, z, h1, h2⟩

/-- **Some blocks make way for others that fill the same room.** -/
theorem replace (h : Tiles hdr a (l ++ (m ++ bs)) e) (hm : ∀ {x y}, Tiles hdr x m y → Tiles hdr x m' y) :
    Tiles hdr a (l ++ (m' ++ bs)) e := by
  obtain ⟨y, h1, h2⟩ := append_iff.1 h
  obtain ⟨z, h2, h3⟩ := append_iff.1 h2
  exact append_iff.2 ⟨y, h1, append_iff.2 ⟨z, hm h2, h3⟩⟩

theorem total : ∀ {bs : List Block} {a : Nat}, Tiles hdr a bs e → a + (bs.map fun b => hdr + b.size).sum = e
  | [], _, h => by simpa [Tiles] using h
  | b :: bs, a, h => by
    have hrest := h.2.total
    simp only [map_cons, sum_cons]
    omega

theorem length_le : ∀ {bs : List Block} {a : Nat}, Tiles hdr a bs e → a + hdr * bs.length ≤ e
  | [], _, h => Nat.le_of_eq h
  | b :: bs, a, h => by
    have hrest := h.2.length_le
    rw [length_cons, Nat.mul_succ]
    omega

theorem le (h : Tiles hdr a bs e) : a ≤ e := by
  have := h.total
  omega

theorem bounds : ∀ {bs : List Block} {a : Nat}, Tiles hdr a bs e → b ∈ bs → a ≤ b.addr ∧ b.addr + hdr + b.size ≤ e
  | c :: bs, a, ⟨ha, h⟩, hb => by
    rcases mem_cons.1 hb with rfl | hb
    · have := h.le
      omega
    · have := h.bounds hb
      omega

theorem ordered : ∀ {bs : List Block} {a : Nat}, Tiles hdr a bs e → bs.Pairwise fun b c => b.addr + hdr + b.size ≤ c.addr
  | [], _, _ => List.Pairwise.nil
  | b :: bs, a, ⟨ha, h⟩ => by
    refine List.Pairwise.cons (fun c hc => ?_) h.ordered
    have := h.bounds hc
    omega

theorem before (h : Tiles hdr a (l ++ b :: m) e) (hc : c ∈ l) : c.addr + hdr + c.size ≤ b.addr := by
  obtain ⟨z, h1, h2⟩ := append_iff.1 h
  have hz := h1.bounds hc
  have hb := h2.1
  omega

theorem behind (h : Tiles hdr a (l ++ b :: m) e) (hc : c ∈ m) : b.addr + hdr + b.size ≤ c.addr := by
  obtain ⟨z, -, hb, h2⟩ := append_iff.1 h
  have hz := h2.bounds hc
  omega

theorem separate (h : Tiles hdr a bs e) (hb : b ∈ bs) (hc : c ∈ bs) :
    c = b ∨ c.addr + hdr + c.size ≤ b.addr ∨ b.addr + hdr + b.size ≤ c.addr := by
  obtain ⟨l, m, rfl⟩ := append_of_mem hb
  rcases mem_append.1 hc with hc | hc
  · exact .inr (.inl (h.before hc))
  · exact (mem_cons.1 hc).imp_right fun hc => .inr (h.behind hc)

theorem single (h : Tiles hdr a bs e) (hap : Apart bs) (hfree : ∀ b ∈ bs, b.free) (hlt : a < e) :
    bs = [⟨a, e - a - hdr, true⟩] := by
  match bs, h, hap, hfree with
  | [], h, _, _ =>
    have : a = e := h
    omega
  | [b], h, _, hfree =>
    obtain ⟨ha, he⟩ := h
    have hsize : a + hdr + b.size = e := he
    have hf : b.free = true := hfree b mem_cons_self
    obtain ⟨addr, size, free⟩ := b
    simp only at ha hsize hf
    subst ha hf
    simp only [cons.injEq, Block.mk.injEq, and_true, true_and]
    omega
  | b :: c :: bs, _, hap, hfree =>
    have hbc := (isChain_cons_cons.1 hap).1
    exact absurd ⟨hfree b (by simp), hfree c (by simp)⟩ hbc

end Tiles

/-! ## Taking a block -/

/-- Take `n` bytes of a free block; the rest becomes a block of its own if it has room for more than `least` bytes. -/
def carve (hdr least : Nat) (b : Block) (n : Nat) : List Block :=
  if b.size < n + hdr + least then [{ b with free := false }]
  else [⟨b.addr, n, false⟩, ⟨b.addr + hdr + n, b.size - n - hdr, true⟩]

variable {least n : Nat}

theorem usedPayloads_append (l m : List Block) : usedPayloads hdr (l ++ m) = usedPayloads hdr l ++ usedPayloads hdr m := by
  simp [usedPayloads]

theorem usedPayloads_free (h : b.free) : usedPayloads hdr (b :: l) = usedPayloads hdr l := by
  simp [usedPayloads, h]

theorem mem_usedPayloads {p : Nat} : p ∈ usedPayloads hdr bs ↔ ∃ b ∈ bs, b.free = false ∧ b.addr + hdr = p := by
  simp [usedPayloads, and_assoc]

theorem usedPayloads_nodup (h : Tiles hdr a bs e) (hpos : 0 < hdr) : (usedPayloads hdr bs).Nodup := by
  refine List.Pairwise.map _ ?_ (h.ordered.filter _)
  omega

theorem usedPayloads_carve : usedPayloads hdr (carve hdr least b n) = [b.addr + hdr] := by
  rw [carve]
  split <;> simp [usedPayloads]

theorem carve_head (hdr least : Nat) (h : n ≤ b.size) : ∃ c rest, carve hdr least b n = c :: rest ∧ c.addr = b.addr ∧ c.free = false ∧ n ≤ c.size := by
  rw [carve]
  split
  · exact ⟨_, _, rfl, rfl, rfl, h⟩
  · exact ⟨_, _, rfl, rfl, rfl, le_rfl⟩

/-- What was around a free block is in use, so its rest has no free neighbour. -/
theorem carve_apart (h : Apart (l ++ b :: m)) (hb : b.free) : Apart (l ++ (carve hdr least b n ++ m)) := by
  obtain ⟨hl, hbm, hseam⟩ := isChain_append.1 h
  have hm : Apart m := hbm.tail
  have hnext : ∀ c ∈ m.head?, ¬ c.free := by
    intro c hc hfree
    cases m with
    | nil => simp at hc
    | cons d m =>
      obtain rfl : d = c := by simpa using hc
      exact (isChain_cons_cons.1 hbm).1 ⟨hb, hfree⟩
  have hrest : ∀ d : Block, Apart (d :: m) := by
    intro d
    cases m with
    | nil => exact isChain_singleton _
    | cons c m => exact isChain_cons_cons.2 ⟨fun hf => hnext c rfl hf.2, hm⟩
  refine isChain_append.2 ⟨hl, ?_, ?_⟩
  · rw [carve]
    split
    · exact hrest _
    · exact isChain_cons_cons.2 ⟨by simp, hrest _⟩
  · intro x _ y hy
    rw [carve] at hy
    split at hy <;> simp at hy <;> subst hy <;> simp

/-! ## Giving a block back -/

/-- Take in the block behind, if it is free. -/
def absorb (hdr : Nat) (b : Block) : List Block → List Block
  | [] => [b]
  | c :: l => if c.free then { b with size := b.size + (hdr + c.size) } :: l else b :: c :: l

theorem absorb_tiles {x y : Nat} (h : Tiles hdr x (b :: l) y) : Tiles hdr x (absorb hdr b l) y := by
  cases l with
  | nil => exact h
  | cons c l =>
    rw [absorb]
    split
    · obtain ⟨hx, hc, h⟩ := h
      refine ⟨hx, ?_⟩
      have hend : x + hdr + (b.size + (hdr + c.size)) = x + hdr + b.size + hdr + c.size := by omega
      rw [hend]
      exact h
    · exact h

theorem usedPayloads_absorb : usedPayloads hdr (absorb hdr b l) = usedPayloads hdr (b :: l) := by
  cases l with
  | nil => rfl
  | cons c l =>
    rw [absorb]
    split
    · rename_i hc
      cases hb : b.free <;> simp [usedPayloads, hb, hc]
    · rfl

theorem absorb_head (hdr : Nat) (b : Block) (l : List Block) : ∃ c rest, absorb hdr b l = c :: rest ∧ c.addr = b.addr ∧ c.free = b.free := by
  cases l with
  | nil => exact ⟨b, [], rfl, rfl, rfl⟩
  | cons d l =>
    rw [absorb]
    split
    · exact ⟨_, l, rfl, rfl, rfl⟩
    · exact ⟨_, _, rfl, rfl, rfl⟩

theorem mem_absorb (hc : c ∈ l) (hused : c.free = false) : c ∈ absorb hdr b l := by
  cases l with
  | nil => exact absurd hc not_mem_nil
  | cons d l =>
    rw [absorb]
    split
    · rename_i hd
      rcases mem_cons.1 hc with rfl | hc
      · exact absurd (hd.symm.trans hused) (by decide)
      · exact mem_cons_of_mem _ hc
    · exact mem_cons_of_mem _ hc

theorem absorb_apart (h : Apart l) : Apart (absorb hdr b l) := by
  cases l with
  | nil => exact isChain_singleton _
  | cons c l =>
    rw [absorb]
    split
    · rename_i hc
      -- the block behind the absorbed one is in use
      cases l with
      | nil => exact isChain_singleton _
      | cons d l =>
        obtain ⟨hcd, hl⟩ := isChain_cons_cons.1 h
        exact isChain_cons_cons.2 ⟨fun hf => hcd ⟨hc, hf.2⟩, hl⟩
    · rename_i hc
      exact isChain_cons_cons.2 ⟨fun hf => hc hf.2, h⟩

end PureUnix.Lib
