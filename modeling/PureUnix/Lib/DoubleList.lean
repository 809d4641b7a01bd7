import PureUnix.Lib.Ring

/-!
# Doubly linked lists in memory

`read` gives the cell at an address: its data and its two links. `Seg read addr data x p l y q`: the cells of the items
`l` are linked one after the other. The first is at `x` and links back to `p`; the last is at `q` and links on to `y`.
An edit of a list is an edit between two segments, so the rules are about joining segments and about what a changed cell
does to one.
-/
namespace PureUnix.Lib

open List

structure Cell (α δ : Type) where
  data : δ
  next : α
  prev : α

variable {α β δ : Type} {read read' : α → Cell α δ} {addr : β → α} {data : β → δ} {x y p q p' : α} {b : β} {l m : List β}

def Seg (read : α → Cell α δ) (addr : β → α) (data : β → δ) : α → α → List β → α → α → Prop
  | x, p, [], y, q => x = y ∧ p = q
  | x, p, b :: l, y, q => addr b = x ∧ (read x).data = data b ∧ (read x).prev = p ∧ Seg read addr data (read x).next x l y q

namespace Seg

theorem append_iff : ∀ {l : List β} {x p : α}, Seg read addr data x p (l ++ m) y q ↔
    ∃ z r, Seg read addr data x p l z r ∧ Seg read addr data z r m y q
  | [], x, p => by
    constructor
    · intro h
      exact ⟨x, p, ⟨rfl, rfl⟩, h⟩
    · rintro ⟨z, r, ⟨rfl, rfl⟩, h⟩
      exact h
  | b :: l, x, p => by
    simp only [cons_append, Seg, append_iff]
    constructor
    · rintro ⟨ha, hd, hp, z, r, h1, h2⟩
      exact ⟨z, r, ⟨ha, hd, hp, h1⟩, h2⟩
    · rintro ⟨z, r, ⟨ha, hd, hp, h1⟩, h2⟩
      exact ⟨ha, hd, hp, z, r, h1, h2⟩

theorem congr : ∀ {l : List β} {x p : α}, Seg read addr data x p l y q → (∀ b ∈ l, read' (addr b) = read (addr b)) →
    Seg read' addr data x p l y q
  | [], _, _, h, _ => h
  | b :: l, x, p, ⟨ha, hd, hp, h⟩, he => by
    have hx : read' x = read x := by
      rw [← ha]
      exact he b mem_cons_self
    refine ⟨ha, by rw [hx, hd], by rw [hx, hp], ?_⟩
    rw [hx]
    exact h.congr fun c hc => he c (mem_cons_of_mem _ hc)

/-- The first cell gets another link back. -/
theorem relink (h : Seg read addr data x p (b :: l) y q) (hx : read' x = { read x with prev := p' })
    (he : ∀ c ∈ l, read' (addr c) = read (addr c)) : Seg read' addr data x p' (b :: l) y q := by
  obtain ⟨ha, hd, -, h⟩ := h
  refine ⟨ha, by rw [hx, ← hd], by rw [hx], ?_⟩
  rw [hx]
  exact h.congr he

/-- Some cells change what they say but not where they link. -/
theorem replace (mid mid' : List β) {tail : List β} (h : Seg read addr data x p (l ++ (mid ++ tail)) y q)
    (hl : ∀ b ∈ l, read' (addr b) = read (addr b))
    (hmid : ∀ {z r nx t}, Seg read addr data z r mid nx t → Seg read' addr data z r mid' nx t)
    (htail : ∀ b ∈ tail, read' (addr b) = read (addr b)) : Seg read' addr data x p (l ++ (mid' ++ tail)) y q := by
  obtain ⟨z, r, h1, h2⟩ := append_iff.1 h
  obtain ⟨nx, t, h2, h3⟩ := append_iff.1 h2
  exact append_iff.2 ⟨z, r, h1.congr hl, append_iff.2 ⟨nx, t, hmid h2, h3.congr htail⟩⟩

/-- **An edit in the middle**: some cells make way for others between the same neighbours, `s` being the new last one; the
cell behind links back to it. -/
theorem edit (mid : List β) {mid' tail : List β} (s : α) (h : Seg read addr data x p (l ++ (mid ++ tail)) y q)
    (hl : ∀ b ∈ l, read' (addr b) = read (addr b))
    (hmid : ∀ {z r nx t}, Seg read addr data z r mid nx t → Seg read addr data nx t tail y q → Seg read' addr data z r mid' nx s)
    (htail : ∀ {c rest}, tail = c :: rest → read' (addr c) = { read (addr c) with prev := s } ∧
      ∀ d ∈ rest, read' (addr d) = read (addr d)) :
    ∃ q, Seg read' addr data x p (l ++ (mid' ++ tail)) y q := by
  obtain ⟨z, r, h1, h2⟩ := append_iff.1 h
  obtain ⟨nx, t, h2, h3⟩ := append_iff.1 h2
  have hnew := hmid h2 h3
  cases tail with
  | nil =>
    obtain rfl : nx = y := h3.1
    exact ⟨s, append_iff.2 ⟨z, r, h1.congr hl, append_iff.2 ⟨nx, s, hnew, rfl, rfl⟩⟩⟩
  | cons c rest =>
    obtain ⟨hc, hrest⟩ := htail rfl
    have hx : addr c = nx := h3.1
    rw [hx] at hc
    exact ⟨q, append_iff.2 ⟨z, r, h1.congr hl, append_iff.2 ⟨nx, s, hnew, h3.relink hc hrest⟩⟩⟩

theorem walk : ∀ {l : List β} {x p : α}, Seg read addr data x p l y q → Walk (fun a => (read a).next) x (l.map addr) y
  | [], _, _, h => h.1
  | _ :: _, _, _, ⟨ha, _, _, h⟩ => ⟨ha, h.walk⟩

theorem data_eq : ∀ {l : List β} {x p : α}, Seg read addr data x p l y q → b ∈ l → (read (addr b)).data = data b
  | c :: l, x, p, ⟨ha, hd, _, h⟩, hb => by
    rcases mem_cons.1 hb with rfl | hb
    · rw [ha, hd]
    · exact h.data_eq hb

theorem last_eq (h : Seg read addr data x p (l ++ [b]) y q) : q = addr b ∧ (read (addr b)).next = y := by
  obtain ⟨z, r, -, ha, -, -, hy, hq⟩ := append_iff.1 h
  rw [ha]
  exact ⟨hq.symm, hy⟩

end Seg

end PureUnix.Lib
