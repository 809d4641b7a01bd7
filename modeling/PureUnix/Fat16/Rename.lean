import PureUnix.Fat16.Names
import PureUnix.Fat16.Runs

/-!
# `fat16_rename` and the directory tree

`fat16_rename` copies the record of a directory under its new name and erases the old record. It writes nothing into
the directory itself, so the directory's ".." keeps naming the directory it was in. `TreeKept` says that the directories
are a tree as before; the main theorem says for which renames it holds.
-/
namespace PureUnix.Fat16

open Lib Vol Bool
open Entry

/-- The names of the first two records of a directory. -/
def dotName : Text := dot :: List.replicate 10 space
def dotdotName : Text := dot :: dot :: List.replicate 9 space

def Entry.isDotDot (e : Entry) : Bool := e.isVisible && e.name == dotdotName

section
variable {fs : Fs} {v w : Vol} {d d' c i k x y z : Nat} {p q r : Place} {e : Entry} {f : Found} {fatName : Text}

namespace Entry

theorem isDotDot_iff : e.isDotDot = true ↔ e.isVisible = true ∧ e.name = dotdotName := by
  unfold isDotDot
  simp

theorem isDot_of_isDotDot (h : e.isDotDot = true) : e.isDot = true := by
  rw [isDot, nameFrom83, (isDotDot_iff.1 h).2]
  decide

theorem isLive_of_isDotDot (h : e.isDotDot = true) : e.isLive = false := by
  unfold isLive
  rw [isDot_of_isDotDot h, Bool.not_true, Bool.and_false]

end Entry

namespace Vol

/-- The records "." and ".." are right: none in the root directory; in any other directory "." names the directory
and the one ".." the directory it is in. -/
structure Dots (fs : Fs) (v : Vol) : Prop where
  root : ∀ i p, v.place fs 0 i = some p → (v.slot p).isVisible = true → (v.slot p).isDot = false
  kinds : ∀ x i p, v.Dir fs x → v.place fs x i = some p → (v.slot p).isVisible = true → (v.slot p).isDot = true →
    (v.slot p).name = dotName ∧ (v.slot p).firstCluster = x ∨ (v.slot p).name = dotdotName
  parent : ∀ d x i p, v.Dir fs d → v.Edge fs d x → v.place fs x i = some p → (v.slot p).isDotDot = true → (v.slot p).firstCluster = d
  present : ∀ d x, v.Dir fs d → v.Edge fs d x → ∃ i p, v.place fs x i = some p ∧ (v.slot p).isDotDot = true
  single : ∀ x i j p q, v.Dir fs x → v.place fs x i = some p → v.place fs x j = some q → (v.slot p).isDotDot = true →
    (v.slot q).isDotDot = true → p = q

/-- Directory `x` has a record "..", and it names `d`. -/
structure UpIs (fs : Fs) (v : Vol) (x d : Nat) : Prop where
  present : ∃ i p, v.place fs x i = some p ∧ (v.slot p).isDotDot = true
  names : ∀ i p, v.place fs x i = some p → (v.slot p).isDotDot = true → (v.slot p).firstCluster = d

/-- **The directories of `v` are a tree in `w`.** -/
structure TreeKept (fs : Fs) (v w : Vol) : Prop where
  reached : ∀ x, v.Dir fs x → w.Dir fs x
  named : ∀ x, w.Dir fs x → x ≠ 0 → ∃! p, w.Live fs p ∧ (w.slot p).isSub = true ∧ (w.slot p).firstCluster = x
  rootless : ∀ p, w.Live fs p → (w.slot p).isSub = true → (w.slot p).firstCluster ≠ 0
  up : ∀ d x, w.Dir fs d → w.Edge fs d x → w.UpIs fs x d

theorem Dir.parent (hx : v.Dir fs x) (h0 : x ≠ 0) : ∃ d, v.Dir fs d ∧ v.Edge fs d x := by
  rcases Relation.ReflTransGen.cases_tail hx with hz | ⟨d, hd, he⟩
  · exact absurd hz h0
  · exact ⟨d, hd, he⟩

/-- Every visible record of a directory leads to a directory. -/
theorem Dots.leads (hdots : v.Dots fs) (hx : v.Dir fs x) (hp : v.place fs x i = some p) (hv : (v.slot p).isVisible = true)
    (hd : (v.slot p).isDirectory = true) : v.Dir fs (v.slot p).firstCluster := by
  cases hdot : (v.slot p).isDot with
  | false =>
    refine hx.tail ⟨i, p, hp, ?_, rfl⟩
    simp only [isSub, isLive, hv, hdot, hd, Bool.not_false, Bool.and_self]
  | true =>
    have h0 : x ≠ 0 := by
      rintro rfl
      rw [hdots.root i p hp hv] at hdot
      cases hdot
    rcases hdots.kinds x i p hx hp hv hdot with ⟨-, hf⟩ | hname
    · rw [hf]
      exact hx
    · obtain ⟨d, hd, he⟩ := hx.parent h0
      rw [hdots.parent d x i p hd he hp (isDotDot_iff.2 ⟨hv, hname⟩)]
      exact hd

theorem Tree.named (h : fs.Ok) (t : v.Tree fs) (hx : v.Dir fs x) (h0 : x ≠ 0) :
    ∃! p, v.Live fs p ∧ (v.slot p).isSub = true ∧ (v.slot p).firstCluster = x := by
  obtain ⟨p, hp, hs, hf⟩ := hx.record h0
  refine ⟨p, ⟨hp, hs, hf⟩, fun q ⟨hq, _, hqf⟩ => ?_⟩
  exact t.sub_unique h hp hq hs (hqf.trans hf.symm)

end Vol

/-! ## The two writes of a rename -/

/-- Place `q` is the free slot in directory `d'`, place `p` the record that is moved. -/
structure Vol.Target (fs : Fs) (v : Vol) (f : Found) (d' k : Nat) (q p : Place) (fatName : Text) : Prop where
  ok : fs.Ok
  tree : v.Tree fs
  dots : v.Dots fs
  dir : v.Dir fs d'
  free : v.FreeAt fs d' k q
  /-- `find_in_dir` did not find the new name. -/
  absent : ∀ j r, v.place fs d' j = some r → (v.slot r).isVisible = true → (v.slot r).name ≠ fatName
  length : fatName.length = 11
  head : fatName.head? ≠ some 0
  home : v.Dir fs f.dirCluster
  place : v.place fs f.dirCluster f.index = some p
  isDirectory : f.entry.isDirectory = true
  leads : v.Dir fs f.entry.firstCluster

/-- The volume after both writes. -/
def Vol.renamed (v : Vol) (f : Found) (q p : Place) (fatName : Text) : Vol :=
  (v.setSlot q (f.entry.setName fatName)).setSlot p f.entry.erase

namespace Vol.Target

theorem erase_isLive : isLive (trunc 32 f.entry.erase) = false := by
  rw [isLive_congr name_trunc attr_trunc]
  exact isLive_of_isFree isFree_erase

theorem slot_p : (v.renamed f q p fatName).slot p = trunc 32 f.entry.erase := slot_setSlot_self _ _ _

theorem slot_q (h : q ≠ p) : (v.renamed f q p fatName).slot q = trunc 32 (f.entry.setName fatName) := by
  rw [renamed, slot_setSlot_of_ne _ _ h, slot_setSlot_self]

theorem slot_other (hp : r ≠ p) (hq : r ≠ q) : (v.renamed f q p fatName).slot r = v.slot r := by
  rw [renamed, slot_setSlot_of_ne _ _ hp, slot_setSlot_of_ne _ _ hq]

theorem place_renamed : (v.renamed f q p fatName).place fs x i = v.place fs x i := by
  rw [renamed, place_setSlot, place_setSlot]

/-- A record after the rename, of a kind the erased one is not: the moved one, or one that was there. -/
theorem slot_cases {K : Entry → Bool} (hK : K (trunc 32 f.entry.erase) = false) (hl : K ((v.renamed f q p fatName).slot r) = true) :
    r ≠ p ∧ (r = q ∨ r ≠ q ∧ (v.renamed f q p fatName).slot r = v.slot r) := by
  have hrp : r ≠ p := by
    rintro rfl
    rw [slot_p, hK] at hl
    cases hl
  by_cases hrq : r = q
  · exact ⟨hrp, .inl hrq⟩
  · exact ⟨hrp, .inr ⟨hrq, slot_other hrp hrq⟩⟩

section
variable (ht : Target fs v f d' k q p fatName)

/-- The volume after the rename. -/
abbrev after (_ : Target fs v f d' k q p fatName) : Vol := v.renamed f q p fatName

include ht

theorem dir_sub (hx : ht.after.Dir fs x) : v.Dir fs x := by
  induction hx with
  | refl => exact .refl
  | tail _ he ih =>
    obtain ⟨i, r, hr, hs, rfl⟩ := he
    rw [place_renamed] at hr
    obtain ⟨hrp, rfl | ⟨hrq, hsl⟩⟩ := slot_cases erase_isLive (isLive_of_isSub hs)
    · rw [slot_q hrp]
      exact ht.leads
    · rw [hsl] at hs ⊢
      exact ih.tail ⟨i, r, hr, hs, rfl⟩

theorem live_back (hr : ht.after.Live fs r) (hrq : r ≠ q) :
    v.Live fs r ∧ r ≠ p ∧ ht.after.slot r = v.slot r := by
  obtain ⟨y, i, hy, hpl, hl⟩ := hr
  obtain ⟨hrp, rfl | ⟨-, hsl⟩⟩ := slot_cases erase_isLive hl
  · exact absurd rfl hrq
  · rw [hsl] at hl
    rw [place_renamed] at hpl
    exact ⟨⟨y, i, ht.dir_sub hy, hpl, hl⟩, hrp, hsl⟩

theorem q_hidden : (v.slot q).isVisible = false := by
  by_contra hv
  have := ht.free.free
  rw [isFree_of_isVisible (by simpa using hv)] at this
  cases this

/-- The ".." of `x` is right if none of its records is touched that is a "..". -/
theorem upIs (hd : v.Dir fs d) (he : v.Edge fs d x)
    (hsame : ∀ i r, v.place fs x i = some r → (ht.after.slot r).isDotDot = true ∨ (v.slot r).isDotDot = true →
      ht.after.slot r = v.slot r) : ht.after.UpIs fs x d := by
  obtain ⟨i, r, hr, hdd⟩ := ht.dots.present d x hd he
  refine ⟨⟨i, r, by rw [place_renamed]; exact hr, by rw [hsame i r hr (.inr hdd)]; exact hdd⟩, fun i r hr hdd => ?_⟩
  rw [place_renamed] at hr
  have hsl := hsame i r hr (.inl hdd)
  rw [hsl] at hdd ⊢
  exact ht.dots.parent d x i r hd he hr hdd

theorem q_isDotDot (hqp : q ≠ p) (hl : (ht.after.slot q).isDotDot = true) :
    fatName = dotdotName := by
  rw [slot_q hqp, isDotDot_iff, name_trunc, name_setName ht.length] at hl
  exact hl.2

theorem eq_q (hs : (v.slot p).isSub = true) (hr : ht.after.Live fs r)
    (hrf : (ht.after.slot r).firstCluster = (v.slot p).firstCluster) : r = q := by
  by_contra hrq
  obtain ⟨hr', hrp, hsl⟩ := ht.live_back hr hrq
  rw [hsl] at hrf
  exact hrp (ht.tree.sub_unique ht.ok ⟨_, _, ht.home, ht.place, isLive_of_isSub hs⟩ hr' hs hrf)

/-- A directory whose record is overwritten, without a new one, is lost. -/
theorem lost (hs : (v.slot p).isSub = true)
    (hq : (ht.after.slot q).isLive = false) : ¬ TreeKept fs v ht.after := by
  intro hk
  have hp : v.Live fs p := ⟨_, _, ht.home, ht.place, isLive_of_isSub hs⟩
  have h0 := (ht.tree.headed _ hp).first_ne hs
  have hx : v.Dir fs (v.slot p).firstCluster := ht.home.tail ⟨_, p, ht.place, hs, rfl⟩
  obtain ⟨r, hr, hrs, hrf⟩ := (hk.reached _ hx).record h0
  rw [ht.eq_q hs hr hrf, isSub_of_isLive hq] at hrs
  cases hrs

/-! ## A rename of "/" -/

theorem kept_of_untouched (hp : (v.slot p).isSub = false)
    (hq : (ht.after.slot q).isSub = false)
    (hup : ∀ x i, v.Dir fs x → x ≠ 0 → v.place fs x i ≠ some p ∧ (v.place fs x i = some q → (ht.after.slot q).isDotDot = false)) :
    TreeKept fs v ht.after := by
  have hqs : (v.slot q).isSub = false := isSub_of_isLive ht.free.isLive
  -- the directory records are the same
  have hsub : ∀ r, (ht.after.slot r).isSub = true ∨ (v.slot r).isSub = true → ht.after.slot r = v.slot r := by
    intro r hr
    have hrp : r ≠ p := by
      rintro rfl
      rcases hr with hr | hr
      · rw [slot_p, isSub_of_isLive erase_isLive] at hr
        cases hr
      · rw [hp] at hr
        cases hr
    have hrq : r ≠ q := by
      rintro rfl
      rcases hr with hr | hr
      · rw [hq] at hr
        cases hr
      · rw [hqs] at hr
        cases hr
    exact slot_other hrp hrq
  have hedge : ∀ y z, ht.after.Edge fs y z ↔ v.Edge fs y z := by
    intro y z
    constructor
    · rintro ⟨i, r, hr, hs, hz⟩
      rw [place_renamed] at hr
      have he := hsub r (.inl hs)
      rw [he] at hs hz
      exact ⟨i, r, hr, hs, hz⟩
    · rintro ⟨i, r, hr, hs, hz⟩
      refine ⟨i, r, by rw [place_renamed]; exact hr, ?_, ?_⟩ <;> rw [hsub r (.inr hs)] <;> assumption
  have hdir : ∀ x, ht.after.Dir fs x ↔ v.Dir fs x := fun x => Reach.congr fun y _ z => hedge y z
  have hlive : ∀ r, ht.after.Live fs r → (ht.after.slot r).isSub = true →
      v.Live fs r ∧ ht.after.slot r = v.slot r := by
    rintro r ⟨y, i, hy, hr, hl⟩ hs
    have he := hsub r (.inl hs)
    rw [place_renamed] at hr
    rw [he] at hl
    exact ⟨⟨y, i, (hdir y).1 hy, hr, hl⟩, he⟩
  refine ⟨fun x => (hdir x).2, fun x hx h0 => ?_, fun r hr hs => ?_, fun d x hd he => ?_⟩
  · obtain ⟨r, hr, hs, hf⟩ := hx.record h0
    refine ⟨r, ⟨hr, hs, hf⟩, fun r' ⟨hr', hs', hf'⟩ => ?_⟩
    obtain ⟨h1, e1⟩ := hlive r hr hs
    obtain ⟨h2, e2⟩ := hlive r' hr' hs'
    rw [e1] at hs hf
    rw [e2] at hf'
    exact ht.tree.sub_unique ht.ok h1 h2 hs (hf'.trans hf.symm)
  · obtain ⟨h1, e1⟩ := hlive r hr hs
    rw [e1] at hs ⊢
    exact (ht.tree.headed _ h1).first_ne hs
  · rw [hedge] at he
    have hd' := (hdir d).1 hd
    obtain ⟨i₀, r₀, hr₀, hs₀, hf₀⟩ := he
    have hx0 : x ≠ 0 := hf₀ ▸ (ht.tree.headed _ ⟨d, i₀, hd', hr₀, isLive_of_isSub hs₀⟩).first_ne hs₀
    have he' : v.Edge fs d x := ⟨i₀, r₀, hr₀, hs₀, hf₀⟩
    refine ht.upIs hd' he' fun i r hr hdd => ?_
    obtain ⟨h1, h2⟩ := hup x i (hd'.tail he') hx0
    have hrp : r ≠ p := fun he => h1 (he ▸ hr)
    refine slot_other hrp ?_
    rintro rfl
    rcases hdd with hdd | hdd
    · rw [h2 hr] at hdd
      cases hdd
    · have := (isDotDot_iff.1 hdd).1
      rw [ht.q_hidden] at this
      cases this

end

/-- The root directory's record is made up: it has the attribute of a directory and cluster 0. -/
theorem root_setName_isLive (ht : Target fs v rootFound d' k q p fatName) :
    (rootFound.entry.setName fatName).isLive = !reserved fatName := by
  rw [setName_isLive ht.length ht.head]
  cases reserved fatName <;> decide

/-- **A rename of "/".** -/
theorem kept_root_iff (ht : Target fs v rootFound d' k q p fatName) : TreeKept fs v ht.after ↔
    (d' = 0 ∧ (v.slot p).isFree = true) ∨ (reserved fatName = true ∧ (v.slot p).isSub = false) := by
  obtain ⟨-, ⟨-, hp⟩ | ⟨hz, -⟩⟩ := place_some.1 ht.place
  swap
  · exact absurd rfl hz
  have hp0 : p = .root 0 := hp
  have hnotin : ∀ x i, x ≠ 0 → v.place fs x i ≠ some p := by
    intro x i hx hpl
    obtain ⟨-, ⟨h0, -⟩ | ⟨-, c, -, he⟩⟩ := place_some.1 hpl
    · exact hx h0
    · rw [hp0] at he
      cases he
  have hqe : q ≠ p → (ht.after.slot q).isLive = !reserved fatName := fun hqp => by
    rw [slot_q hqp, isLive_congr name_trunc attr_trunc, ht.root_setName_isLive]
  constructor
  · intro hk
    by_cases hqp : q = p
    · -- the new record was overwritten at once
      left
      rw [← hqp]
      refine ⟨?_, ht.free.free⟩
      by_contra hd0
      exact hnotin d' k hd0 (hqp ▸ ht.free.place)
    · right
      cases hres : reserved fatName with
      | false =>
        -- the new record names the root directory
        exfalso
        have hl := hqe hqp
        rw [hres] at hl
        have hlive : ht.after.Live fs q :=
          ⟨d', k, hk.reached d' ht.dir, by rw [place_renamed]; exact ht.free.place, hl⟩
        have hdir : (ht.after.slot q).isDirectory = true := by
          rw [slot_q hqp, isDirectory_congr attr_trunc, isDirectory_congr attr_setName]
          exact ht.isDirectory
        refine hk.rootless q hlive (by unfold isSub; rw [hl, hdir]; rfl) ?_
        rw [slot_q hqp, firstCluster_trunc, firstCluster_setName]
        rfl
      | true =>
        refine ⟨rfl, ?_⟩
        by_contra hs
        have hl := hqe hqp
        rw [hres] at hl
        exact ht.lost (by simpa using hs) hl hk
  · rintro (⟨rfl, hfree⟩ | ⟨hres, hsub⟩)
    · -- the free slot is the first one, and the second write clears it again
      have hk0 : k = 0 := by
        by_contra hk
        have := ht.free.before 0 p (Nat.pos_of_ne_zero hk) ht.place
        rw [hfree] at this
        cases this
      have hqp : q = p := Option.some.inj ((hk0 ▸ ht.free.place).symm.trans ht.place)
      subst hqp
      refine ht.kept_of_untouched (isSub_of_isLive (isLive_of_isFree hfree)) ?_ fun x i _ hx =>
        ⟨hnotin x i hx, fun hpl => absurd hpl (hnotin x i hx)⟩
      rw [slot_p]
      exact isSub_of_isLive erase_isLive
    · refine ht.kept_of_untouched hsub ?_ fun x i hxd hx => ⟨hnotin x i hx, fun hpl => ?_⟩
      · by_cases hqp : q = p
        · subst hqp
          rw [slot_p]
          exact isSub_of_isLive erase_isLive
        · refine isSub_of_isLive ?_
          rw [hqe hqp, hres]
          rfl
      · have hqp : q ≠ p := fun he => hnotin x i hx (he ▸ hpl)
        by_contra hdd
        -- the directory has a ".." already
        have hname := ht.q_isDotDot hqp (by simpa using hdd)
        obtain rfl := ht.tree.dir_unique hxd ht.dir hpl ht.free.place
        obtain ⟨d, hd, he⟩ := hxd.parent hx
        obtain ⟨j, r, hr, hrdd⟩ := ht.dots.present d x hd he
        obtain ⟨hv, hn⟩ := isDotDot_iff.1 hrdd
        exact ht.absent j r hr hv (hn.trans hname.symm)

end Vol.Target

/-! ## A rename of a record -/

namespace Vol.Target

structure Moved (v : Vol) (f : Found) (p : Place) : Prop where
  entry : f.entry = v.slot p
  visible : f.entry.isVisible = true
  name : ∃ tok, nameTo83 tok = some f.entry.name

section
variable (ht : Target fs v f d' k q p fatName) (hm : Moved v f p)
include ht hm

theorem ne : q ≠ p := by
  rintro rfl
  have := ht.q_hidden
  rw [← hm.entry, hm.visible] at this
  cases this

theorem q_isLive : (ht.after.slot q).isLive = !reserved fatName := by
  have hv := hm.visible
  unfold isVisible at hv
  simp only [and_eq_true] at hv
  rw [slot_q (ht.ne hm), isLive_congr name_trunc attr_trunc, setName_isLive ht.length ht.head, hv.1.2, hv.2]
  simp

/-- A directory cannot do without its "..". -/
theorem not_dot (hk : TreeKept fs v ht.after) : f.entry.isDot = false := by
  by_contra hdot
  rw [not_eq_false] at hdot
  have hvis := hm.visible
  rw [hm.entry] at hvis hdot
  have h0 : f.dirCluster ≠ 0 := by
    intro h0
    have := ht.dots.root f.index p (h0 ▸ ht.place) hvis
    rw [hdot] at this
    cases this
  have hname : (v.slot p).name = dotdotName := by
    rcases ht.dots.kinds _ _ p ht.home ht.place hvis hdot with ⟨hn, -⟩ | hn
    · obtain ⟨tok, htok⟩ := hm.name
      refine absurd ?_ (nameTo83_ne_dot htok rfl)
      rw [nameFrom83, hm.entry, hn]
      decide
    · exact hn
  have hpdd : (v.slot p).isDotDot = true := isDotDot_iff.2 ⟨hvis, hname⟩
  obtain ⟨d, hd, he⟩ := (hk.reached _ ht.home).parent h0
  obtain ⟨i, r, hr, hrdd⟩ := (hk.up d _ hd he).present
  rw [place_renamed] at hr
  obtain ⟨hrp, rfl | ⟨-, hsl⟩⟩ := slot_cases rfl hrdd
  · -- a second ".." in the same directory would have been found
    have hn := ht.q_isDotDot hrp hrdd
    obtain hdir := ht.tree.dir_unique ht.home ht.dir hr ht.free.place
    exact ht.absent f.index p (hdir ▸ ht.place) hvis (hname.trans hn.symm)
  · rw [hsl] at hrdd
    exact hrp (ht.dots.single _ _ _ r p ht.home hr ht.place hrdd hpdd)

theorem isSub (hdot : f.entry.isDot = false) : (v.slot p).isSub = true := by
  have hvis := hm.visible
  have hdir := ht.isDirectory
  rw [hm.entry] at hvis hdot hdir
  simp only [Entry.isSub, Entry.isLive, hvis, hdot, hdir, Bool.not_false, Bool.and_self]

/-- The ".." of the directory that was moved still names the directory it was in. -/
theorem same_home (hdot : f.entry.isDot = false) (hres : reserved fatName = false)
    (hk : TreeKept fs v ht.after) : d' = f.dirCluster := by
  have hs := ht.isSub hm hdot
  have hp : v.Live fs p := ⟨_, _, ht.home, ht.place, isLive_of_isSub hs⟩
  have h0 := (ht.tree.headed _ hp).first_ne hs
  have he : v.Edge fs f.dirCluster (v.slot p).firstCluster := ⟨_, p, ht.place, hs, rfl⟩
  obtain ⟨d, hd, i, r, hr, hrs, hrf⟩ := (hk.reached _ (ht.home.tail he)).parent h0
  have hrq := ht.eq_q hs ⟨d, i, hd, hr, isLive_of_isSub hrs⟩ hrf
  have hup := hk.up d _ hd ⟨i, r, hr, hrs, hrf⟩
  rw [place_renamed, hrq] at hr
  have hdd' := ht.tree.dir_unique (ht.dir_sub hd) ht.dir hr ht.free.place
  obtain ⟨j, u, hu, hudd⟩ := hup.present
  have hnames := hup.names j u hu hudd
  rw [place_renamed] at hu
  obtain ⟨hup', rfl | ⟨-, hsl⟩⟩ := slot_cases rfl hudd
  · have hl := ht.q_isLive hm
    rw [hres, isLive_of_isDotDot hudd] at hl
    cases hl
  · rw [hsl] at hudd hnames
    rw [← hdd', ← hnames]
    exact ht.dots.parent _ _ j u ht.home he hu hudd

end

theorem kept (ht : Target fs v f f.dirCluster k q p fatName) (hm : Moved v f p) (hdot : f.entry.isDot = false)
    (hres : reserved fatName = false) : TreeKept fs v ht.after := by
  have hs := ht.isSub hm hdot
  have hlive : f.Live fs v p := ⟨ht.home, ht.place, hm.entry, by rw [hm.entry]; exact isLive_of_isSub hs⟩
  have hmv := hlive.moves ht.free ⟨ht.length, ht.head, hres⟩
  obtain ⟨tw, -⟩ := ht.tree.move ht.ok hmv
  refine ⟨fun x hx => (hmv.dir_iff ht.tree x).2 hx, fun x hx h0 => tw.named ht.ok hx h0, fun r hr hrs => (tw.headed r hr).first_ne hrs,
    fun d x hd he => ?_⟩
  have hd' := (hmv.dir_iff ht.tree d).1 hd
  have he' := (hmv.edge_iff ht.tree hd').1 he
  refine ht.upIs hd' he' fun i r _ hdd => ?_
  rcases hdd with hdd | hdd
  · obtain ⟨-, rfl | ⟨-, hsl⟩⟩ := slot_cases rfl hdd
    · have hl := ht.q_isLive hm
      rw [hres, isLive_of_isDotDot hdd] at hl
      cases hl
    · exact hsl
  · refine slot_other ?_ ?_
    · rintro rfl
      have := isLive_of_isDotDot hdd
      rw [isLive_of_isSub hs] at this
      cases this
    · rintro rfl
      have := (isDotDot_iff.1 hdd).1
      rw [ht.q_hidden] at this
      cases this

/-- **A rename of a record.** -/
theorem kept_iff (ht : Target fs v f d' k q p fatName) (hm : Moved v f p) : TreeKept fs v ht.after ↔
    f.entry.isDot = false ∧ reserved fatName = false ∧ d' = f.dirCluster := by
  constructor
  · intro hk
    have hdot := ht.not_dot hm hk
    have hres : reserved fatName = false := by
      by_contra hres
      refine ht.lost (ht.isSub hm hdot) ?_ hk
      rw [ht.q_isLive hm]
      simpa using hres
    exact ⟨hdot, hres, ht.same_home hm hdot hres hk⟩
  · rintro ⟨hdot, hres, rfl⟩
    exact ht.kept hm hdot hres

end Vol.Target

/-! ## The call -/

namespace Vol.Extends
variable {v' : Vol}

section
variable (hx : Extends fs d v v')
include hx

theorem back (hy : v.Dir fs y) (hp : v'.place fs y i = some p) (hv : (v'.slot p).isVisible = true) :
    v.place fs y i = some p ∧ v'.slot p = v.slot p := by
  cases hq : v.place fs y i with
  | none =>
    have hend := (hx.fresh y hy i p hq hp).2
    rw [isEnd_of_isFree (isFree_of_isVisible hv)] at hend
    cases hend
  | some r =>
    obtain ⟨hr, hs⟩ := hx.place y hy i r hq
    obtain rfl := Option.some.inj (hr.symm.trans hp)
    exact ⟨rfl, hs⟩

theorem edge (hy : v.Dir fs y) : v'.Edge fs y z ↔ v.Edge fs y z := by
  constructor
  · rintro ⟨i, p, hp, hs, hz⟩
    obtain ⟨hp', he⟩ := hx.back hy hp (isVisible_of_isLive (isLive_of_isSub hs))
    exact ⟨i, p, hp', by rw [← he]; exact hs, by rw [← he]; exact hz⟩
  · rintro ⟨i, p, hp, hs, hz⟩
    obtain ⟨hp', he⟩ := hx.place y hy i p hp
    exact ⟨i, p, hp', by rw [he]; exact hs, by rw [he]; exact hz⟩

theorem dots (hdots : v.Dots fs) : v'.Dots fs where
  root := fun i p hp hv => by
    obtain ⟨hp', he⟩ := hx.back .refl hp hv
    rw [he] at hv ⊢
    exact hdots.root i p hp' hv
  kinds := fun y i p hy hp hv hdot => by
    have hy' := (hx.dir y).1 hy
    obtain ⟨hp', he⟩ := hx.back hy' hp hv
    rw [he] at hv hdot ⊢
    exact hdots.kinds y i p hy' hp' hv hdot
  parent := fun c y i p hc hcy hp hdd => by
    have hc' := (hx.dir c).1 hc
    have hcy' := (hx.edge hc').1 hcy
    obtain ⟨hp', he⟩ := hx.back (hc'.tail hcy') hp (isDotDot_iff.1 hdd).1
    rw [he] at hdd ⊢
    exact hdots.parent c y i p hc' hcy' hp' hdd
  present := fun c y hc hcy => by
    have hc' := (hx.dir c).1 hc
    have hcy' := (hx.edge hc').1 hcy
    obtain ⟨i, p, hp, hdd⟩ := hdots.present c y hc' hcy'
    obtain ⟨hp', he⟩ := hx.place y (hc'.tail hcy') i p hp
    exact ⟨i, p, hp', by rw [he]; exact hdd⟩
  single := fun y i j p q hy hp hq h1 h2 => by
    have hy' := (hx.dir y).1 hy
    obtain ⟨hp', he⟩ := hx.back hy' hp (isDotDot_iff.1 h1).1
    obtain ⟨hq', he'⟩ := hx.back hy' hq (isDotDot_iff.1 h2).1
    rw [he] at h1
    rw [he'] at h2
    exact hdots.single y i j p q hy' hp' hq' h1 h2

theorem kept_iff : TreeKept fs v' w ↔ TreeKept fs v w :=
  ⟨fun hk => ⟨fun x h => hk.reached x ((hx.dir x).2 h), hk.named, hk.rootless, hk.up⟩,
    fun hk => ⟨fun x h => hk.reached x ((hx.dir x).1 h), hk.named, hk.rootless, hk.up⟩⟩

end

end Vol.Extends

/-- What `fat16_rename` does, behind the checks of the paths. -/
theorem run_renameIn (fatName : Text) (h : fs.Ok) (t : v.Tree fs) (hd : v.Dir fs d') (hhome : v.Dir fs f.dirCluster) (hi : f.dirCluster ≠ 0 → f.index < 65536) :
    ∃ rc w, run (Vol.step fs) (renameIn fs f d' fatName) v = (rc, w) ∧ w.wild = false ∧
      (rc = 0 → ∃ v₁ k q p, Vol.Extends fs d' v v₁ ∧ v₁.FreeAt fs d' k q ∧
        (∀ j r, v₁.place fs d' j = some r → (v₁.slot r).isVisible = true → (v₁.slot r).name ≠ fatName) ∧
        v₁.place fs f.dirCluster f.index = some p ∧ w = v₁.renamed f q p fatName) := by
  obtain ⟨r, hr, -, habs⟩ := run_findInDir h t hd fatName
  rw [renameIn, run_bind, hr]
  cases r with
  | some g => exact ⟨-1, v, rfl, t.wild, fun h0 => absurd h0 (by decide)⟩
  | none =>
    obtain ⟨r, v₁, hr, hx, hfree⟩ := run_findFreeSlot h t hd
    dsimp only
    rw [run_bind, hr]
    cases r with
    | none => exact ⟨-1, v₁, rfl, hx.tree.wild, fun h0 => absurd h0 (by decide)⟩
    | some k =>
      obtain ⟨q, hq⟩ := hfree k rfl
      have hd₁ := (hx.dir d').2 hd
      have hhome₁ := (hx.dir f.dirCluster).2 hhome
      have hs : (v₁.setSlot q (f.entry.setName fatName)).Sound fs f.dirCluster := by
        rcases hx.tree.sound h hhome₁ with h0 | hc
        · exact .inl h0
        · exact .inr (by rw [clusters_setSlot, chain_setSlot]; exact hc)
      dsimp only
      rw [run_bind, run_writeDirEntryAt h (hx.tree.sound h hd₁) (place_lt hq.place).2, hq.place]
      dsimp only
      rw [if_neg (by decide), run_writeDirEntryAt h hs hi, place_setSlot]
      cases hp : v₁.place fs f.dirCluster f.index with
      | none =>
        refine ⟨-1, _, rfl, ?_, fun h0 => absurd h0 (by decide)⟩
        rw [wild_setSlot]
        exact hx.tree.wild
      | some p =>
        refine ⟨0, _, rfl, ?_, fun _ => ⟨v₁, k, q, p, hx, hq, fun j r hr hv => ?_, hp, rfl⟩⟩
        · rw [wild_setSlot, wild_setSlot]
          exact hx.tree.wild
        · obtain ⟨hr', he⟩ := hx.back hd hr hv
          rw [he] at hv ⊢
          exact habs rfl j r hr' hv

/-- The last name of the path is one of a "..", or of a deleted record. -/
def leafReserved (path : Text) : Bool := (nameTo83 (leafText path)).any reserved

/-- The renames that keep the tree, for what `path_lookup` gives for the old path and `path_parent` for the new. -/
def KeepsTree (v : Vol) (old new : Text) (f parent : Found) : Prop :=
  if old = [slash] then
    (parent.entry.firstCluster = 0 ∧ (v.slot (.root 0)).isFree = true) ∨ (leafReserved new = true ∧ (v.slot (.root 0)).isSub = false)
  else f.entry.isDot = false ∧ leafReserved new = false ∧ parent.entry.firstCluster = f.dirCluster

/-- `path_lookup` where the records "." and ".." are right. -/
theorem run_lookup_dots (h : fs.Ok) (t : v.Tree fs) (hdots : v.Dots fs) (path : Text) :
    ∃ r, run (Vol.step fs) (pathLookup fs path) v = (r, v) ∧
      ∀ f, r = some f → (path = [slash] ∧ f = rootFound ∨ path ≠ [slash] ∧ v.Dir fs f.dirCluster ∧ (∃ p, f.At fs v p) ∧
        ∃ tok, nameTo83 tok = some f.entry.name) ∧ (f.entry.isDirectory = true → v.Dir fs f.entry.firstCluster) := by
  have hleads : ∀ tok ∈ pathTokens path, v.Leads fs tok := fun tok _ fatName _ d i p hd hp hv _ hdir => hdots.leads hd hp hv hdir
  obtain ⟨r, hr, hsome⟩ := run_pathLookup h t hleads
  refine ⟨r, hr, fun f hf => ?_⟩
  rcases hsome f hf with ⟨hroot, rfl⟩ | ⟨hne, hd, ⟨p, hat⟩, tok, -, hn⟩
  · exact ⟨.inl ⟨hroot, rfl⟩, fun _ => .refl⟩
  · refine ⟨.inr ⟨hne, hd, ⟨p, hat⟩, tok, hn⟩, fun hdir => ?_⟩
    have hvis := hat.visible
    rw [hat.entry] at hdir hvis ⊢
    exact hdots.leads hd hat.place hvis hdir

/-- On a volume: a rename does not leave it, and if it succeeds it keeps the tree just in the cases of `KeepsTree`. -/
theorem run_rename {old new : Text} {parent : Found} (h : fs.Ok) (t : v.Tree fs) (hdots : v.Dots fs) (h0 : 0 ∉ new)
    (hf : (run (Vol.step fs) (pathLookup fs old) v).1 = some f) (hfd : f.entry.isDirectory = true)
    (hg : (run (Vol.step fs) (pathParent fs new) v).1 = some parent) (hgd : parent.entry.isDirectory = true) :
    ∃ rc w, run (Vol.step fs) (rename fs old new) v = (rc, w) ∧ w.wild = false ∧
      (rc = 0 → (Vol.TreeKept fs v w ↔ KeepsTree v old new f parent)) := by
  obtain ⟨r, hr, hfound⟩ := run_lookup_dots h t hdots old
  rw [hr] at hf
  obtain rfl : r = some f := hf
  obtain ⟨hcase, hleads⟩ := hfound f rfl
  -- `path_parent` is `path_lookup` of the directory part
  have hpar : ∃ r, run (Vol.step fs) (pathParent fs new) v = (r, v) ∧
      ∀ g, r = some g → g.entry.isDirectory = true → v.Dir fs g.entry.firstCluster := by
    rw [pathParent, Prog.run_ite]
    split
    · exact ⟨none, rfl, by simp⟩
    · obtain ⟨r, hr, hfound⟩ := run_lookup_dots h t hdots (parentText new)
      exact ⟨r, hr, fun g hg => (hfound g hg).2⟩
  obtain ⟨r', hr', hdir⟩ := hpar
  rw [hr'] at hg
  obtain rfl : r' = some parent := hg
  have hd' := hdir parent rfl hgd
  rw [rename, run_bind, hr]
  dsimp only
  rw [run_bind, hr']
  dsimp only
  cases hn : nameTo83 (leafText new) with
  | none => exact ⟨-1, v, rfl, t.wild, fun hz => absurd hz (by decide)⟩
  | some fatName =>
    obtain ⟨hlen, hhead⟩ := nameTo83_spec hn (zero_notMem_leaf h0)
    have hleaf : leafReserved new = reserved fatName := by
      unfold leafReserved
      rw [hn]
      rfl
    have hhome : v.Dir fs f.dirCluster ∧ (f.dirCluster ≠ 0 → f.index < 65536) := by
      rcases hcase with ⟨-, rfl⟩ | ⟨-, hhome, ⟨p, hat⟩, -⟩
      · exact ⟨.refl, fun hz => absurd rfl hz⟩
      · exact ⟨hhome, (place_lt hat.place).2⟩
    obtain ⟨rc, w, hrun, hwild, hzero⟩ := run_renameIn fatName h t hd' hhome.1 hhome.2
    refine ⟨rc, w, hrun, hwild, fun hrc => ?_⟩
    obtain ⟨v₁, k, q, p, hx, hq, habs, hp, rfl⟩ := hzero hrc
    have ht : Vol.Target fs v₁ f parent.entry.firstCluster k q p fatName :=
      ⟨h, hx.tree, hx.dots hdots, (hx.dir _).2 hd', hq, habs, hlen, hhead, (hx.dir _).2 hhome.1, hp, hfd, (hx.dir _).2 (hleads hfd)⟩
    rw [← hx.kept_iff]
    unfold KeepsTree
    rw [hleaf]
    rcases hcase with ⟨hroot, rfl⟩ | ⟨hne, hhome, ⟨p', hat⟩, hname⟩
    · -- the first record of the root directory
      have hp0 : p = .root 0 := by
        obtain ⟨-, ⟨-, he⟩ | ⟨hz, -⟩⟩ := place_some.1 hp
        · exact he
        · exact absurd rfl hz
      have hsame : v₁.slot p = v.slot p := by
        refine (hx.place 0 .refl 0 p ?_).2
        obtain ⟨hlt, -⟩ := place_some.1 hp
        exact place_some.2 ⟨hlt, .inl ⟨rfl, hp0⟩⟩
      rw [if_pos hroot, ht.kept_root_iff, hsame, hp0]
    · rw [if_neg hne]
      obtain ⟨hp', he⟩ := hx.place _ hhome _ p' hat.place
      obtain rfl := Option.some.inj (hp'.symm.trans hp)
      exact ht.kept_iff ⟨by rw [he]; exact hat.entry, hat.visible, hname⟩

/-- **When a rename of a directory keeps the tree.** -/
theorem rename_keeps_tree_iff {disk : Disk} {old new : Text} {parent : Found} (h : fs.Ok) (hd : disk.Consistent fs)
    (hdots : (disk.vol fs).Dots fs) (h0 : 0 ∉ new)
    (hf : (onDisk fs (pathLookup fs old) disk).1 = some f) (hfd : f.entry.isDirectory = true)
    (hg : (onDisk fs (pathParent fs new) disk).1 = some parent) (hgd : parent.entry.isDirectory = true)
    (hr : (onDisk fs (rename fs old new) disk).1 = 0) :
    Vol.TreeKept fs (disk.vol fs) ((onDisk fs (rename fs old new) disk).2.vol fs) ↔ KeepsTree (disk.vol fs) old new f parent := by
  have hdec : Decodes fs disk (disk.vol fs) := ⟨hd.mirrored, rfl⟩
  have hlook : ∀ path, (onDisk fs (pathLookup fs path) disk).1 = (run (Vol.step fs) (pathLookup fs path) (disk.vol fs)).1 := by
    intro path
    obtain ⟨r, hr, -⟩ := run_lookup_dots h hd.vol.toTree hdots path
    exact (onDisk_simulates h _ hdec (by rw [hr]; rfl)).1
  have hpar : (onDisk fs (pathParent fs new) disk).1 = (run (Vol.step fs) (pathParent fs new) (disk.vol fs)).1 := by
    rw [pathParent]
    split
    · rfl
    · exact hlook _
  rw [hlook] at hf
  rw [hpar] at hg
  obtain ⟨rc, w, hrun, hwild, hkept⟩ := run_rename h hd.vol.toTree hdots h0 hf hfd hg hgd
  obtain ⟨hans, -, hvol⟩ := onDisk_simulates h (rename fs old new) hdec (by rw [hrun]; exact hwild)
  rw [hrun] at hans hvol
  rw [← hvol]
  exact hkept (hans.symm.trans hr)

end

namespace Small

/-- The records "." and ".." of A and B. -/
theorem dot_slots : ∀ c < 4, 2 ≤ c → ∀ i < 16, (vol.slot (.data c i)).isDotDot = decide (i = 1) ∧
    ((vol.slot (.data c i)).isVisible = false ∨ (vol.slot (.data c i)).isDotDot = true ∨
      (vol.slot (.data c i)).name = dotName ∧ (vol.slot (.data c i)).firstCluster = c) := by decide +kernel

theorem up {c i : Nat} {p : Place} (hc : c = 2 ∨ c = 3) (hp : vol.place smallFs c i = some p) (hu : (vol.slot p).isDotDot = true) : p = .data c 1 := by
  obtain ⟨hi, rfl⟩ := (smallFs_single (chain (by omega))).1 hp
  rw [(dot_slots c (by omega) (by omega) i hi).1, decide_eq_true_iff] at hu
  rw [hu]

theorem no_up_root {i : Nat} {p : Place} (hp : vol.place smallFs 0 i = some p) : (vol.slot p).isDot = false := by
  obtain ⟨hi, rfl⟩ := smallFs_root.1 hp
  exact (root_slots i hi).2.2.2.1

theorem dots : vol.Dots smallFs where
  root := fun i p hp _ => no_up_root hp
  kinds := fun x i p hx hp hv hdot => by
    rcases dir hx with rfl | hx
    · rw [no_up_root hp] at hdot
      cases hdot
    · obtain ⟨hi, rfl⟩ := (smallFs_single (chain (by omega))).1 hp
      rcases (dot_slots x (by omega) (by omega) i hi).2 with h | h | h
      · rw [h] at hv
        cases hv
      · exact .inr (isDotDot_iff.1 h).2
      · exact .inl h
  parent := fun d x i p hd he hp hu => by
    obtain ⟨rfl, hx⟩ := edge hd he
    obtain rfl := up hx hp hu
    rcases hx with rfl | rfl <;> decide +kernel
  present := fun d x hd he => by
    obtain ⟨-, hx⟩ := edge hd he
    refine ⟨1, .data x 1, (smallFs_single (chain (by omega))).2 ⟨by decide, rfl⟩, ?_⟩
    rw [(dot_slots x (by omega) (by omega) 1 (by decide)).1]
    rfl
  single := fun x i j p q hx hp hq hu hu' => by
    rcases dir hx with rfl | hx
    · have hdot := isDot_of_isDotDot hu
      rw [no_up_root hp] at hdot
      cases hdot
    · rw [up hx hp hu, up hx hq hu']

theorem lookup_A : (onDisk smallFs (pathLookup smallFs [slash, 65]) smallDisk).1.isSome = true := by decide +kernel

theorem parent_C : (onDisk smallFs (pathParent smallFs [slash, 67]) smallDisk).1.isSome = true := by decide +kernel

end Small

/-- "/A" becomes "/C". -/
theorem rename_keeps_tree_in_root :
    Vol.TreeKept smallFs (smallDisk.vol smallFs) ((onDisk smallFs (rename smallFs [slash, 65] [slash, 67]) smallDisk).2.vol smallFs) := by
  refine (rename_keeps_tree_iff smallFs_ok smallDisk_consistent Small.dots (by decide) (Option.some_get Small.lookup_A).symm (by decide +kernel)
    (Option.some_get Small.parent_C).symm (by decide +kernel) (by decide +kernel)).2 ?_
  unfold KeepsTree
  decide +kernel

/-- "/A" becomes "/B/A": it is in B then, and its ".." still names the root directory. -/
theorem rename_breaks_tree : smallDisk.Consistent smallFs ∧ (smallDisk.vol smallFs).Dots smallFs ∧
      (onDisk smallFs (pathLookup smallFs [slash, 65]) smallDisk).1.map (·.entry.isDirectory) = some true ∧
      (onDisk smallFs (pathParent smallFs [slash, 66, slash, 65]) smallDisk).1.map (·.entry.isDirectory) = some true ∧
      (onDisk smallFs (rename smallFs [slash, 65] [slash, 66, slash, 65]) smallDisk).1 = 0 ∧
      ¬ Vol.TreeKept smallFs (smallDisk.vol smallFs)
        ((onDisk smallFs (rename smallFs [slash, 65] [slash, 66, slash, 65]) smallDisk).2.vol smallFs) := by
  refine ⟨smallDisk_consistent, Small.dots, by decide +kernel, by decide +kernel, by decide +kernel, fun hkept => ?_⟩
  generalize hw : (onDisk smallFs (rename smallFs [slash, 65] [slash, 66, slash, 65]) smallDisk).2.vol smallFs = w at hkept
  have hB : w.Edge smallFs 0 3 := ⟨1, .root 1, by subst hw; decide +kernel, by subst hw; decide +kernel, by subst hw; decide +kernel⟩
  have hA : w.Edge smallFs 3 2 := ⟨2, .data 3 2, by subst hw; decide +kernel, by subst hw; decide +kernel, by subst hw; decide +kernel⟩
  have hup := (hkept.up 3 2 (Relation.ReflTransGen.single hB) hA).names 1 (.data 2 1) (by subst hw; decide +kernel) (by subst hw; decide +kernel)
  subst hw
  revert hup
  decide +kernel
end PureUnix.Fat16
