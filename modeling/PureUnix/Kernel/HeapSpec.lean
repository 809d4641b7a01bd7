import PureUnix.Kernel.Heap

/-!
# What the heap's functions do to its blocks

`Laid m start bs`: the headers in memory are those of the blocks `bs`, which tile the heap. Each function of the heap is
an edit of that list.
-/
namespace PureUnix.Kernel.Heap
open Lib List Option

variable {m : Buf} {start b n nx size : Nat} {bs : List Block}

theorem Far.symm {a b : Nat} (h : Far a b) : Far b a := Or.symm h

/-- The byte `i` is not in the header at `a`. -/
abbrev Outside (a i : Nat) : Prop := i < a ∨ a + 20 ≤ i

theorem Far.outside {a d i : Nat} (h : Far d a) (h1 : d ≤ i) (h2 : i < d + 20) : Outside a i := by
  unfold Far at h
  omega

section
variable {a v i : Nat} {f : Bool} (h : Outside a i)
include h

theorem setMagic_out : setMagic m a v i = m i := put32_out (by omega)
theorem setSize_out : setSize m a v i = m i := put32_out (by omega)
theorem setFree_out : setFree m a f i = m i := if_neg (by omega)
theorem setNext_out : setNext m a v i = m i := put32_out (by omega)
theorem setPrev_out : setPrev m a v i = m i := put32_out (by omega)

end

theorem header_of_out {m' : Buf} {d c : Nat} (h : ∀ i, Outside b i → Outside c i → (nx ≠ 0 → Outside nx i) → m' i = m i)
    (hb : Far d b) (hc : Far d c) (hnx : nx ≠ 0 → Far d nx) : header m' d = header m d :=
  header_congr fun i h1 h2 => h i (hb.outside h1 h2) (hc.outside h1 h2) fun h0 => (hnx h0).outside h1 h2

/-! ## Splitting and merging, header by header -/

/-- The split writes one new header, and links it in. -/
theorem header_splitBlock (size : Nat) (hnext : blockNext m b = nx) (hn : n = b + 20 + size) (hbig : size + 36 ≤ blockSize m b) (hfits : n < 4294967296)
    (hnx : nx ≠ 0 → Far nx b ∧ Far nx n) :
    header (splitBlock m b size) b = ⟨{ (header m b).data with size := size }, n, (header m b).prev⟩ ∧
    header (splitBlock m b size) n = ⟨⟨HEAP_MAGIC, blockSize m b - size - 20, true⟩, nx, b⟩ ∧
    (nx ≠ 0 → header (splitBlock m b size) nx = { header m nx with prev := n }) ∧
    ∀ i, Outside b i → Outside n i → (nx ≠ 0 → Outside nx i) → splitBlock m b size i = m i := by
  have hbn : Far b n := .inl (by omega)
  have hlt : blockSize m b < 4294967296 := get32_lt _ _
  have hnxlt : nx < 4294967296 := hnext ▸ get32_lt _ _
  -- the new header
  let m1 := setMagic m n HEAP_MAGIC
  let m2 := setSize m1 n (u32 (blockSize m1 b + 2 ^ 32 - size - 20))
  let m3 := setFree m2 n true
  let m4 := setNext m3 n (blockNext m3 b)
  let m5 := setPrev m4 n b
  -- the links to it
  let m6 := if blockNext m5 n ≠ 0 then setPrev m5 (blockNext m5 n) n else m5
  let m7 := setNext m6 b n
  have hsplit : splitBlock m b size = setSize m7 b size := by
    have haddr : u32 (b + 20 + size) = n := by rw [u32_of_lt (by omega), hn]
    rw [splitBlock, if_neg (by rw [u32_of_lt (by omega)]; omega)]
    simp only [haddr, m7, m6, m5, m4, m3, m2, m1]
  have hout5 : ∀ i, Outside n i → m5 i = m i := fun i hi =>
    (setPrev_out hi).trans ((setNext_out hi).trans ((setFree_out hi).trans ((setSize_out hi).trans (setMagic_out hi))))
  have hfar : ∀ d, Far d n → header m5 d = header m d := fun d hd => header_congr fun i h1 h2 => hout5 i (hd.outside h1 h2)
  have hsize1 : blockSize m1 b = blockSize m b := congrArg (fun c => c.data.size) (header_setMagic_far hbn)
  have hnext3 : blockNext m3 b = nx := by
    rw [← hnext]
    have h3 : header m3 b = header m b := by
      rw [header_setFree_far hbn, header_setSize_far hbn, header_setMagic_far hbn]
    exact congrArg Cell.next h3
  have hsize : u32 (blockSize m1 b + 2 ^ 32 - size - 20) = blockSize m b - size - 20 := by
    rw [u32]
    omega
  have hself : header m5 n = ⟨⟨HEAP_MAGIC, blockSize m b - size - 20, true⟩, nx, b⟩ := by
    change header (setPrev (setNext (setFree (setSize m1 n _) n true) n (blockNext m3 b)) n b) n = _
    rw [hnext3, hsize, header_setPrev (by omega), header_setNext hnxlt, header_setFree, header_setSize (by omega),
      header_setMagic (by decide)]
  have hnext5 : blockNext m5 n = nx := congrArg Cell.next hself
  have hout6 : ∀ i, (nx ≠ 0 → Outside nx i) → m6 i = m5 i := by
    intro i hi
    simp only [m6, hnext5]
    split
    · rename_i h0
      exact setPrev_out (hi h0)
    · rfl
  have h6 : ∀ d, (nx ≠ 0 → Far d nx) → header m6 d = header m5 d := fun d hd =>
    header_congr fun i h1 h2 => hout6 i fun h0 => (hd h0).outside h1 h2
  have hprev6 : nx ≠ 0 → header m6 nx = { header m5 nx with prev := n } := by
    intro h0
    simp only [m6, hnext5, if_pos h0]
    exact header_setPrev hfits
  rw [hsplit]
  refine ⟨?_, ?_, ?_, ?_⟩
  · rw [header_setSize (by omega), header_setNext hfits, h6 b fun h0 => (hnx h0).1.symm, hfar b hbn]
  · rw [header_setSize_far hbn.symm, header_setNext_far hbn.symm, h6 n fun h0 => (hnx h0).2.symm, hself]
  · intro h0
    rw [header_setSize_far (hnx h0).1, header_setNext_far (hnx h0).1, hprev6 h0, hfar nx (hnx h0).2]
  · intro i hb hn hnx'
    exact (setSize_out hb).trans ((setNext_out hb).trans ((hout6 i hnx').trans (hout5 i hn)))

theorem header_mergeNext {c : Nat} (hnext : blockNext m b = c) (hc : c ≠ 0) (hfree : blockFree m c) (hnx : blockNext m c = nx)
    (hbc : Far c b) (hfits : blockSize m b + (20 + blockSize m c) < 4294967296) (hb : b < 4294967296) (hfar : nx ≠ 0 → Far nx b) :
    header (mergeNext m b) b = ⟨{ (header m b).data with size := blockSize m b + (20 + blockSize m c) }, nx, (header m b).prev⟩ ∧
    (nx ≠ 0 → header (mergeNext m b) nx = { header m nx with prev := b }) ∧
    ∀ i, Outside b i → (nx ≠ 0 → Outside nx i) → mergeNext m b i = m i := by
  have hnxlt : nx < 4294967296 := hnx ▸ get32_lt _ _
  let m1 := setSize m b (u32 (blockSize m b + (20 + blockSize m (blockNext m b))))
  let m2 := setNext m1 b (blockNext m1 (blockNext m1 b))
  have hmerge : mergeNext m b = if blockNext m2 b ≠ 0 then setPrev m2 (blockNext m2 b) b else m2 := by
    rw [mergeNext, if_pos (by rw [hnext]; exact ⟨hc, hfree⟩)]
  have h1 : header m1 b = { header m b with data := { (header m b).data with size := blockSize m b + (20 + blockSize m c) } } := by
    simp only [m1, hnext, u32_of_lt hfits]
    exact header_setSize hfits
  have hnext1 : blockNext m1 b = c := (congrArg Cell.next h1).trans hnext
  have hnx1 : blockNext m1 c = nx := (congrArg Cell.next (header_setSize_far hbc)).trans hnx
  have h2 : header m2 b = ⟨{ (header m b).data with size := blockSize m b + (20 + blockSize m c) }, nx, (header m b).prev⟩ := by
    simp only [m2, hnext1, hnx1]
    rw [header_setNext hnxlt, h1]
  have hnext2 : blockNext m2 b = nx := congrArg Cell.next h2
  have hout : ∀ i, Outside b i → m2 i = m i := fun i hi => (setNext_out hi).trans (setSize_out hi)
  rw [hmerge, hnext2]
  by_cases h0 : nx = 0
  · rw [if_neg (not_not.2 h0)]
    exact ⟨h2, fun h => absurd h0 h, fun i hi _ => hout i hi⟩
  rw [if_pos h0]
  refine ⟨?_, fun _ => ?_, fun i hi hin => ?_⟩
  · rw [header_setPrev_far (hfar h0).symm, h2]
  · rw [header_setPrev hb, header_setNext_far (hfar h0), header_setSize_far (hfar h0)]
  · rw [setPrev_out (hin h0), hout i hi]

/-! ## The blocks of the heap -/

def InHeader (bs : List Block) (i : Nat) : Prop := ∃ b ∈ bs, b.addr ≤ i ∧ i < b.addr + 20

def InUse (bs : List Block) (i : Nat) : Prop := ∃ b ∈ bs, b.free = false ∧ b.addr + 20 ≤ i ∧ i < b.addr + 20 + b.size

theorem not_inHeader {i : Nat} {k : Block} (hi : ¬ InHeader bs i) (hk : k ∈ bs) : Outside k.addr i := by
  by_contra hin
  exact hi ⟨k, hk, by omega, by omega⟩

structure Laid (m : Buf) (start : Nat) (bs : List Block) : Prop where
  pos : 0 < start
  fits : start + HEAP_SIZE < 4294967296
  linked : ∃ q, Seg (header m) Block.addr blockData start 0 bs 0 q
  tiles : Tiles 20 start bs (start + HEAP_SIZE)

namespace Laid
variable {m' : Buf} {bs l l' : List Block} {c : Block} {k : Block}

section
variable (h : Laid m start bs) (hk : k ∈ bs)
include h hk

theorem addr_pos : 0 < k.addr := by
  have := (h.tiles.bounds hk).1
  have := h.pos
  omega

theorem bound : k.addr + 20 + k.size < 4294967296 := by
  have := (h.tiles.bounds hk).2
  have := h.fits
  omega

theorem size_le : k.size + 20 ≤ HEAP_SIZE := by
  have := h.tiles.bounds hk
  omega

theorem blockOf_eq : blockOf (k.addr + 20) = k.addr := by
  have := h.bound hk
  rw [blockOf, u32]
  omega

theorem data : (header m k.addr).data = blockData k := by
  obtain ⟨q, hseg⟩ := h.linked
  exact hseg.data_eq hk

theorem size_eq : blockSize m k.addr = k.size := congrArg HeaderData.size (h.data hk)
theorem free_eq : blockFree m k.addr = k.free := congrArg HeaderData.free (h.data hk)
theorem magic_eq : blockMagic m k.addr = HEAP_MAGIC := congrArg HeaderData.magic (h.data hk)

end

section
variable (h : Laid m start (l ++ k :: l'))
include h

theorem far_before (hc : c ∈ l) : Far c.addr k.addr := by
  have := h.tiles.before hc
  exact .inl (by omega)

theorem far_behind (hc : c ∈ l') : Far c.addr k.addr := by
  have := h.tiles.behind hc
  exact .inr (by omega)

theorem next_eq : blockNext m k.addr = (l'.head?.map Block.addr).getD 0 := by
  obtain ⟨q, hseg⟩ := h.linked
  obtain ⟨z, r, -, hz, -, -, hrest⟩ := Seg.append_iff.1 hseg
  rw [hz]
  cases l' with
  | nil => exact hrest.1
  | cons c l' => exact hrest.1.symm

theorem prev_eq : blockPrev m k.addr = (l.getLast?.map Block.addr).getD 0 := by
  obtain ⟨q, hseg⟩ := h.linked
  obtain ⟨z, r, hl, hz, -, hp, -⟩ := Seg.append_iff.1 hseg
  change (header m k.addr).prev = _
  rw [hz, hp]
  rcases eq_nil_or_concat' l with rfl | ⟨l0, c, rfl⟩
  · exact hl.2.symm
  · rw [getLast?_concat]
    exact hl.last_eq.1

end

theorem congr (h : Laid m start bs) (he : ∀ k ∈ bs, header m' k.addr = header m k.addr) : Laid m' start bs := by
  obtain ⟨q, hseg⟩ := h.linked
  exact ⟨h.pos, h.fits, ⟨q, hseg.congr he⟩, h.tiles⟩

theorem write_inside (h : Laid m start bs) (hk : k ∈ bs) {src : Buf} {off len : Nat} (h1 : k.addr + 20 ≤ off)
    (h2 : off + len ≤ k.addr + 20 + k.size) : Laid (copy m off src len) start bs := by
  refine h.congr fun c hc => header_congr (copy_same ?_)
  rcases h.tiles.separate hk hc with rfl | hsep <;> omega

theorem mark (h : Laid m start (l ++ k :: l')) (f : Bool) : Laid (setFree m k.addr f) start (l ++ { k with free := f } :: l') := by
  obtain ⟨q, hseg⟩ := h.linked
  have hself := header_setFree (m := m) (a := k.addr) (f := f)
  have htile : ∀ {x y}, Tiles 20 x [k] y → Tiles 20 x [{ k with free := f }] y := fun ht => ht
  refine ⟨h.pos, h.fits, ⟨q, ?_⟩, h.tiles.replace htile⟩
  refine hseg.replace [k] [{ k with free := f }] (fun c hc => header_setFree_far (h.far_before hc)) ?_
    (fun c hc => header_setFree_far (h.far_behind hc))
  rintro z r nx t ⟨rfl, hd, hp, hn, ht⟩
  exact ⟨rfl, by rw [hself, hd]; rfl, by rw [hself, hp], by rw [hself, hn], ht⟩

theorem next_far (h : Laid m start (l ++ k :: l')) (hne : blockNext m k.addr ≠ 0) :
    ∃ c rest, l' = c :: rest ∧ blockNext m k.addr = c.addr ∧ (∀ d ∈ l, Far d.addr c.addr) ∧ ∀ d ∈ rest, Far d.addr c.addr := by
  cases l' with
  | nil => exact absurd h.next_eq hne
  | cons c rest =>
    have h' : Laid m start ((l ++ [k]) ++ c :: rest) := by simpa using h
    exact ⟨c, rest, rfl, h.next_eq, fun d hd => h'.far_before (by simp [hd]), fun d hd => h'.far_behind hd⟩

theorem start_mem (h : Laid m start bs) : ∃ k ∈ bs, k.addr = start := by
  cases bs with
  | nil =>
    have hnone : start = start + HEAP_SIZE := h.tiles
    have hheap : HEAP_SIZE = 8388608 := rfl
    omega
  | cons k bs => exact ⟨k, mem_cons_self, h.tiles.1⟩

theorem next_mem (h : Laid m start bs) (hk : k ∈ bs) (hne : blockNext m k.addr ≠ 0) : ∃ c ∈ bs, c.addr = blockNext m k.addr := by
  obtain ⟨l, l', rfl⟩ := append_of_mem hk
  obtain ⟨c, rest, rfl, hc, -⟩ := h.next_far hne
  exact ⟨c, by simp, hc.symm⟩

theorem split (h : Laid m start (l ++ k :: l')) (hbig : size + 36 ≤ k.size) : Laid (splitBlock m k.addr size) start
      (l ++ ([{ k with size := size }, ⟨k.addr + 20 + size, k.size - size - 20, true⟩] ++ l')) ∧
    ∀ i, ¬ InHeader (l ++ k :: l') i → (i < k.addr ∨ k.addr + 20 + k.size ≤ i) → splitBlock m k.addr size i = m i := by
  obtain ⟨q, hseg⟩ := h.linked
  have hmem : k ∈ l ++ k :: l' := by simp
  have hbound := h.bound hmem
  have hsize := h.size_eq hmem
  have hbehind : ∀ c ∈ l', Far c.addr k.addr ∧ Far c.addr (k.addr + 20 + size) := by
    intro c hc
    have := h.tiles.behind hc
    exact ⟨.inr (by omega), .inr (by omega)⟩
  have hbefore : ∀ c ∈ l, Far c.addr k.addr ∧ Far c.addr (k.addr + 20 + size) := by
    intro c hc
    have := h.tiles.before hc
    exact ⟨.inl (by omega), .inl (by omega)⟩
  obtain ⟨hself, hnew, hback, hother⟩ := header_splitBlock size (m := m) (b := k.addr) rfl rfl (by omega) (by omega) (by
      intro hne
      obtain ⟨c, rest, rfl, hc, -⟩ := h.next_far hne
      rw [hc]
      exact hbehind c mem_cons_self)
  refine ⟨⟨h.pos, h.fits, ?_, ?_⟩, fun i hi hclear => hother i (not_inHeader hi hmem) (by omega) fun hne => ?_⟩
  · refine hseg.edit [k] (k.addr + 20 + size) (fun d hd => ?_) ?_ ?_
    · refine header_of_out hother (hbefore d hd).1 (hbefore d hd).2 fun hne => ?_
      obtain ⟨c, rest, rfl, hc, hl, -⟩ := h.next_far hne
      rw [hc]
      exact hl d hd
    · rintro z r nx t ⟨rfl, hd, hp, hn, -⟩ -
      refine ⟨rfl, by rw [hself, hd]; rfl, by rw [hself, hp], by rw [hself], ?_, ?_, ?_, ?_⟩
      · rw [hself, hnew, hsize]
        rfl
      · rw [hself, hnew]
      · rw [hself, hnew]
        exact hn
      · rw [hself]
    · rintro c rest rfl
      have hnx : blockNext m k.addr = c.addr := h.next_eq
      have hne : c.addr ≠ 0 := (h.addr_pos (by simp)).ne'
      refine ⟨?_, fun d hd => ?_⟩
      · rw [← hnx]
        exact hback (hnx ▸ hne)
      · obtain ⟨c', rest', he, hc', -, hrest⟩ := h.next_far (hnx ▸ hne)
        obtain ⟨rfl, rfl⟩ := cons.inj he
        have hdk := hbehind d (mem_cons_of_mem _ hd)
        exact header_of_out hother hdk.1 hdk.2 fun _ => hc' ▸ hrest d hd
  · refine h.tiles.replace (m := [k]) fun {x y} ht => ?_
    obtain ⟨hx, hy⟩ := ht
    have hend : x + 20 + k.size = y := hy
    simp only [Tiles]
    omega
  · obtain ⟨c, hc, hca⟩ := h.next_mem hmem hne
    exact hca ▸ not_inHeader hi hc

theorem merge (h : Laid m start (l ++ k :: c :: l')) (hfree : c.free) :
    Laid (mergeNext m k.addr) start (l ++ ([{ k with size := k.size + (20 + c.size) }] ++ l')) ∧
    ∀ i, ¬ InHeader (l ++ k :: c :: l') i → mergeNext m k.addr i = m i := by
  obtain ⟨q, hseg⟩ := h.linked
  have h' : Laid m start ((l ++ [k]) ++ c :: l') := by simpa using h
  have hk : k ∈ l ++ k :: c :: l' := by simp
  have hc : c ∈ l ++ k :: c :: l' := by simp
  have hsize : blockSize m k.addr + (20 + blockSize m c.addr) = k.size + (20 + c.size) := by
    rw [h.size_eq hk, h.size_eq hc]
  have hroom : k.addr + 20 + k.size = c.addr := by
    obtain ⟨z, -, hz, hz', -⟩ := Tiles.append_iff.1 h.tiles
    omega
  have hbound' := h.bound hc
  obtain ⟨hself, hback, hother⟩ := header_mergeNext (c := c.addr) h.next_eq (h.addr_pos hc).ne'
    ((h.free_eq hc).trans hfree) rfl (h.far_behind mem_cons_self) (by omega) (by omega)
    (by
      intro hne
      obtain ⟨d, rest, rfl, hd, -⟩ := h'.next_far hne
      rw [hd]
      exact h.far_behind (by simp))
  rw [hsize] at hself
  refine ⟨⟨h.pos, h.fits, ?_, ?_⟩, fun i hi => hother i (not_inHeader hi hk) fun hne => ?_⟩
  · refine hseg.edit [k, c] k.addr (fun d hd => ?_) ?_ ?_
    · refine header_of_out (fun i hi _ => hother i hi) (h.far_before hd) (h.far_before hd) fun hne => ?_
      obtain ⟨e, rest, rfl, he, hl, -⟩ := h'.next_far hne
      rw [he]
      exact hl d (by simp [hd])
    · rintro z r nx t ⟨rfl, hd, hp, hc', -, -, hn, -⟩ -
      have hnx : blockNext m c.addr = nx := by
        rw [hc']
        exact hn
      refine ⟨rfl, by rw [hself, hd]; rfl, by rw [hself, hp], ?_, rfl⟩
      rw [hself, hnx]
    · rintro d rest rfl
      have hnx : blockNext m c.addr = d.addr := h'.next_eq
      have hne : d.addr ≠ 0 := (h.addr_pos (by simp)).ne'
      refine ⟨?_, fun e he => ?_⟩
      · rw [← hnx]
        exact hback (hnx ▸ hne)
      · obtain ⟨d', rest', heq, hd', -, hrest⟩ := h'.next_far (hnx ▸ hne)
        obtain ⟨rfl, rfl⟩ := cons.inj heq
        have hek : Far e.addr k.addr := h.far_behind (by simp [he])
        exact header_of_out (fun i hi _ => hother i hi) hek hek fun _ => hd' ▸ hrest e he
  · refine h.tiles.replace (m := [k, c]) fun {x y} ht => ?_
    have := absorb_tiles ht
    simpa [absorb, hfree] using this
  · obtain ⟨d, hd, hda⟩ := h.next_mem hc hne
    exact hda ▸ not_inHeader hi hd

/-- `coalesce`'s first half takes in the block behind if it is free. -/
theorem absorb (h : Laid m start (l ++ k :: l')) : Laid (mergeNext m k.addr) start (l ++ absorb 20 k l') ∧
    ∀ i, ¬ InHeader (l ++ k :: l') i → mergeNext m k.addr i = m i := by
  cases l' with
  | nil =>
    have hnx : blockNext m k.addr = 0 := h.next_eq
    rw [mergeNext, if_neg (by simp [hnx])]
    exact ⟨h, fun _ _ => rfl⟩
  | cons c l' =>
    rw [Lib.absorb]
    split
    · rename_i hfree
      exact h.merge hfree
    rename_i hused
    have hnx : blockNext m k.addr = c.addr := h.next_eq
    have hfree : blockFree m c.addr = false := by
      rw [h.free_eq (by simp)]
      exact eq_false_of_ne_true hused
    rw [mergeNext, if_neg (by simp [hnx, hfree])]
    exact ⟨h, fun _ _ => rfl⟩

end Laid

/-- The blocks as the headers in memory give them, from `b` on. -/
def blockList (m : Buf) : Nat → Nat → List Block
  | 0, _ => []
  | fuel + 1, b => if b = 0 then [] else ⟨b, blockSize m b, blockFree m b⟩ :: blockList m fuel (blockNext m b)

def heapBlocks (start : Nat) (m : Buf) : List Block := blockList m heapFuel start

theorem blockList_eq {q : Nat} : ∀ {bs : List Block} {fuel x p : Nat}, Seg (header m) Block.addr blockData x p bs 0 q →
    (∀ k ∈ bs, 0 < k.addr) → bs.length < fuel → blockList m fuel x = bs
  | [], fuel + 1, x, p, h, _, _ => by
    obtain rfl : x = 0 := h.1
    rw [blockList, if_pos rfl]
  | k :: bs, fuel + 1, x, p, h, hpos, hlen => by
    obtain ⟨rfl, hdata, -, h⟩ := h
    have hsize : blockSize m k.addr = k.size := congrArg HeaderData.size hdata
    have hfree : blockFree m k.addr = k.free := congrArg HeaderData.free hdata
    have hrest := blockList_eq h (fun c hc => hpos c (mem_cons_of_mem _ hc)) (by simpa using hlen)
    rw [blockList, if_neg (hpos k mem_cons_self).ne', hsize, hfree]
    exact congrArg _ hrest

theorem Laid.length_lt (h : Laid m start bs) : bs.length < heapFuel := by
  have hheap : HEAP_SIZE = 8388608 := rfl
  have := h.tiles.length_le
  rw [heapFuel]
  omega

theorem Laid.heapBlocks_eq (h : Laid m start bs) : heapBlocks start m = bs := by
  obtain ⟨q, hseg⟩ := h.linked
  exact blockList_eq hseg (fun k hk => h.addr_pos hk) h.length_lt

/-! ## Taking a block -/

variable {bs l l' : List Block} {k : Block} {i : Nat}

theorem InUse.not_inHeader (h : Laid m start bs) (hi : InUse bs i) : ¬ InHeader bs i := by
  obtain ⟨b, hb, -, h1, h2⟩ := hi
  rintro ⟨c, hc, h3, h4⟩
  rcases h.tiles.separate hb hc with rfl | hsep <;> omega

theorem take_laid (h : Laid m start (l ++ k :: l')) (hfree : k.free) (hsize : size ≤ k.size) :
    Laid (setFree (splitBlock m k.addr size) k.addr false) start (l ++ (carve 20 16 k size ++ l')) ∧
    ∀ i, InUse (l ++ k :: l') i → setFree (splitBlock m k.addr size) k.addr false i = m i := by
  have hmem : k ∈ l ++ k :: l' := by simp
  have hself : ∀ {i}, InUse (l ++ k :: l') i → setFree (splitBlock m k.addr size) k.addr false i = splitBlock m k.addr size i :=
    fun hi => setFree_out (not_inHeader (hi.not_inHeader h) hmem)
  rw [carve]
  by_cases hsmall : k.size < size + 20 + 16
  · rw [if_pos hsmall]
    have hnone : splitBlock m k.addr size = m := by
      rw [splitBlock, if_pos]
      have hheap : HEAP_SIZE = 8388608 := rfl
      have hle := h.size_le hmem
      rw [h.size_eq hmem, u32_of_lt (by omega)]
      exact hsmall
    rw [hnone] at hself ⊢
    exact ⟨h.mark false, fun i hi => hself hi⟩
  · rw [if_neg hsmall]
    obtain ⟨hsplit, hout⟩ := h.split (show size + 36 ≤ k.size by omega)
    refine ⟨hsplit.mark false, fun i hi => (hself hi).trans (hout i (hi.not_inHeader h) ?_)⟩
    -- a byte in use is not in the free block
    obtain ⟨b, hb, hused, h1, h2⟩ := hi
    rcases h.tiles.separate hmem hb with rfl | hsep
    · exact absurd (hfree.symm.trans hused) (by decide)
    · omega

/-- **`kmalloc` takes the first free block that has room**, or changes nothing. -/
theorem kmalloc_spec (h : Laid m start bs) (hsize : size ≠ 0) :
    (kmalloc start size m = some (0, m) ∧ ∀ k ∈ bs, k.free → k.size < align8 size) ∨
    ∃ l k l', bs = l ++ k :: l' ∧ k.free ∧ align8 size ≤ k.size ∧
      kmalloc start size m = some (k.addr + 20, setFree (splitBlock m k.addr (align8 size)) k.addr false) ∧
      Laid (setFree (splitBlock m k.addr (align8 size)) k.addr false) start (l ++ (carve 20 16 k (align8 size) ++ l')) ∧
      ∀ i, InUse bs i → setFree (splitBlock m k.addr (align8 size)) k.addr false i = m i := by
  let fits := fun b => blockMagic m b == HEAP_MAGIC && blockFree m b && decide (align8 size ≤ blockSize m b)
  have hwalk : Walk (blockNext m) start (bs.map Block.addr) 0 := by
    obtain ⟨q, hseg⟩ := h.linked
    exact hseg.walk
  have hstop : ∀ x ∈ bs.map Block.addr, ¬ (x == 0) := by
    intro x hx
    obtain ⟨k, hk, rfl⟩ := mem_map.1 hx
    have := h.addr_pos hk
    simp only [beq_iff_eq]
    omega
  have hlen : (bs.map Block.addr).length < heapFuel := by
    rw [length_map]
    exact h.length_lt
  have hseek : seek (blockNext m) fits (· == 0) heapFuel start = some ((bs.map Block.addr).find? fits) :=
    seek_eq hwalk (by simp) hstop hlen
  have hrun : kmalloc start size m = ((bs.map Block.addr).find? fits).elim (some (0, m)) fun b =>
      some (u32 (b + 20), setFree (splitBlock m b (align8 size)) b false) := by
    rw [kmalloc, if_neg hsize]
    change (seek (blockNext m) fits (· == 0) heapFuel start).bind _ = _
    rw [hseek]
    cases (bs.map Block.addr).find? fits <;> rfl
  rw [hrun, find?_map]
  cases hf : bs.find? (fits ∘ Block.addr) with
  | none =>
    refine .inl ⟨rfl, fun k hk hfree => ?_⟩
    have hno := find?_eq_none.1 hf k hk
    simp only [fits, Function.comp_apply, h.magic_eq hk, h.size_eq hk, h.free_eq hk, hfree] at hno
    simpa using hno
  | some k =>
    right
    obtain ⟨hk, l, l', rfl, -⟩ := find?_eq_some_iff_append.1 hf
    have hmem : k ∈ l ++ k :: l' := by simp
    simp only [fits, Function.comp_apply, Bool.and_eq_true, decide_eq_true_eq, h.size_eq hmem, h.free_eq hmem] at hk
    have hbound := h.bound hmem
    refine ⟨l, k, l', rfl, hk.1.2, hk.2, ?_, take_laid h hk.1.2 hk.2⟩
    simp only [map_some, elim_some, u32_of_lt (show k.addr + 20 < 4294967296 by omega)]

/-! ## Giving a block back -/

theorem inHeader_absorb (h : InHeader (l ++ absorb 20 k l') i) : InHeader (l ++ k :: l') i := by
  cases l' with
  | nil => exact h
  | cons c l' =>
    rw [absorb] at h
    split at h
    · simp only [InHeader, mem_append, mem_cons, or_and_right, exists_or, exists_eq_left] at h ⊢
      exact h.imp_right (Or.imp_right .inr)
    · exact h

/-- The block `k` between `l` and `l'` has been joined with its free neighbours: the others in use are still there, and only
headers have been written. -/
structure Freed (m m' : Buf) (start : Nat) (l : List Block) (k : Block) (l' bs : List Block) : Prop where
  laid : Laid m' start bs
  apart : Apart bs
  used : usedPayloads 20 bs = usedPayloads 20 (l ++ l')
  kept : ∀ d ∈ l ++ l', d.free = false → d ∈ bs
  bytes : ∀ i, ¬ InHeader (l ++ k :: l') i → m' i = m i

section
variable (h : Laid m start (l ++ k :: l'))
include h

/-- The recursion of `coalesce` stops at a block with no free one before it. -/
theorem coalesce_stop (hlast : ∀ c ∈ l.getLast?, ¬ c.free) (fuel : Nat) : coalesce (fuel + 1) m k.addr = some (mergeNext m k.addr) := by
  have hmerged := h.absorb.1
  obtain ⟨c, rest, hc, haddr, -⟩ := absorb_head 20 k l'
  rw [hc] at hmerged
  have hprev := haddr ▸ hmerged.prev_eq
  rw [coalesce, if_neg]
  rintro ⟨hne, hfree⟩
  rw [hprev] at hne hfree
  cases hl : l.getLast? with
  | none => simp [hl] at hne
  | some d =>
    have hd : d ∈ l := mem_of_getLast? hl
    rw [hl, map_some, getD_some, hmerged.free_eq (by simp [hd])] at hfree
    exact hlast d hl hfree

/-- **Freeing a block joins it with its free neighbours.** -/
theorem coalesce_spec (hk : k.free) (hl : Apart l) (hl' : Apart l') :
    ∃ m' bs, coalesce heapFuel m k.addr = some m' ∧ Freed m m' start l k l' bs := by
  obtain ⟨fuel, hfuel⟩ : ∃ fuel, heapFuel = fuel + 1 + 1 := ⟨HEAP_SIZE - 2, by decide⟩
  rw [hfuel]
  obtain ⟨hlaid, hbytes⟩ := h.absorb
  have hstop : (∀ c ∈ l.getLast?, ¬ c.free) → ∃ m' bs, coalesce (fuel + 1 + 1) m k.addr = some m' ∧ Freed m m' start l k l' bs := by
    intro hlast
    refine ⟨_, _, coalesce_stop h hlast (fuel + 1), hlaid, ?_, ?_, ?_, hbytes⟩
    · exact isChain_append.2 ⟨hl, absorb_apart hl', fun c hc d _ hf => hlast c hc hf.1⟩
    · rw [usedPayloads_append, usedPayloads_absorb, usedPayloads_free hk, usedPayloads_append]
    · intro d hd hused
      exact mem_append.2 ((mem_append.1 hd).imp_right fun hd => mem_absorb hd hused)
  rcases eq_nil_or_concat' l with rfl | ⟨l0, c, rfl⟩
  · exact hstop (by simp)
  by_cases hc : c.free
  · -- the block before is free: it takes this one in, and the block before it is in use
    have hmerged : Laid (mergeNext m k.addr) start (l0 ++ c :: absorb 20 k l') := by simpa using hlaid
    have hlast : ∀ d ∈ l0.getLast?, ¬ d.free := fun d hd hf => (isChain_append.1 hl).2.2 d hd c rfl ⟨hf, hc⟩
    obtain ⟨hlaid', hbytes'⟩ := hmerged.absorb
    refine ⟨_, _, ?_, hlaid', ?_, ?_, ?_, fun i hi => ?_⟩
    · obtain ⟨d, rest, hd, haddr, -⟩ := absorb_head 20 k l'
      have hprev : blockPrev (mergeNext m k.addr) k.addr = c.addr := by
        have hm := hd ▸ hlaid
        have hp := hm.prev_eq
        rw [haddr] at hp
        simpa using hp
      rw [coalesce, hprev, if_pos ⟨(hmerged.addr_pos (by simp)).ne', (hmerged.free_eq (by simp)).trans hc⟩]
      exact coalesce_stop hmerged hlast fuel
    · refine isChain_append.2 ⟨(isChain_append.1 hl).1, absorb_apart (absorb_apart hl'), fun d hd e _ hf => hlast d hd hf.1⟩
    · rw [usedPayloads_append, usedPayloads_absorb, usedPayloads_free hc, usedPayloads_absorb, usedPayloads_free hk,
        usedPayloads_append, usedPayloads_append, usedPayloads_free hc]
      simp [usedPayloads]
    · intro d hd hused
      simp only [mem_append, mem_singleton] at hd ⊢
      rcases hd with (hd | rfl) | hd
      · exact .inl hd
      · exact absurd (hc.symm.trans hused) (by decide)
      · exact .inr (mem_absorb (mem_absorb hd hused) hused)
    · rw [hbytes' i fun hin => hi (inHeader_absorb (by simpa using hin)), hbytes i hi]
  · exact hstop (by simpa using hc)

/-- **`kfree` of a block in use.** -/
theorem kfree_spec (hap : Apart (l ++ k :: l')) : ∃ m' bs, kfree (k.addr + 20) m = some m' ∧ Freed m m' start l k l' bs := by
  have hmem : k ∈ l ++ k :: l' := by simp
  obtain ⟨hl, hl', -⟩ := isChain_append.1 hap
  obtain ⟨m', bs, hrun, hf⟩ := coalesce_spec (h.mark true) rfl hl hl'.tail
  refine ⟨m', bs, ?_, hf.laid, hf.apart, hf.used, hf.kept, fun i hi => ?_⟩
  · rw [kfree, if_neg (by omega), h.blockOf_eq hmem, if_neg (not_not.2 (h.magic_eq hmem))]
    exact hrun
  · rw [hf.bytes i (by simpa [InHeader, or_and_right, exists_or] using hi), setFree_out (not_inHeader hi hmem)]

end

end PureUnix.Kernel.Heap
