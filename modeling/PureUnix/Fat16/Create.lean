import PureUnix.Ext2.Tokens
import PureUnix.Fat16.Listing

/-!
# Names without collisions

What `name_to_83` makes of a name, and what follows for `fat16_create`: the new record is where its path leads, and the
directory lists it once. Two kinds of names are accepted that should not be: "..." becomes the name of a ".." record, and a
name that starts with `0xE5` becomes that of a deleted one.
-/
namespace PureUnix.Fat16

open Lib List Option Entry
open Vol
open Ext2

section
variable {fs : Fs} {v w u : Vol} {d i k x : Nat} {p q : Place} {e : Entry} {f : Found} {fatName : Text} {name path dir : Text} {directory : Bool}

/-! ## A new record is seen -/

theorem Vol.Created.adds (hc : Vol.Created fs v w d fatName directory) (h : fs.Ok) (hd : v.Dir fs d) (hw : w.Tree fs) :
    v.Absent fs d fatName ∧ ∃ k e, Vol.Adds fs v w d k e ∧ e.name = fatName ∧ e.isDirectory = directory ∧ e.size = 0 := by
  obtain ⟨v₁, u, k, p, e, hx, t, hs, hf, rfl, hlive, hname, hdir, hsize⟩ := hc.made
  have hdirs : ∀ {x}, v.Dir fs x → v₁.Dir fs x ∧ u.Dir fs x := fun {x} hx' => ⟨(hx.dir x).2 hx', (hs.dir x).2 ((hx.dir x).2 hx')⟩
  have hvis : Entry.isVisible (trunc 32 e) = true := by
    rw [isVisible_congr name_trunc attr_trunc]
    exact isVisible_of_isLive hlive
  -- a record of `v` is the same one in `u`
  have hplace : ∀ {x i q}, v.Dir fs x → v.place fs x i = some q → u.place fs x i = some q ∧ u.slot q = v.slot q := by
    intro x i q hx' hq
    obtain ⟨hq₁, hslot⟩ := hx.place x hx' i q hq
    refine ⟨by rw [hs.place x (hdirs hx').1, hq₁], ?_⟩
    rw [hs.slot x i q (hdirs hx').1 hq₁, hslot]
  refine ⟨?_, k, trunc 32 e, ⟨hw, ?_, hd, (place_lt hf.place).1, ?_, ?_, ?_⟩, ?_, ?_, ?_⟩
  · intro j e' hseen
    obtain ⟨q, hq, hv', rfl⟩ := seen_some.1 hseen
    exact hc.absent j q hq hv'
  · intro x hx'
    -- no directory's record was in the free slot
    refine Relation.ReflTransGen.mono (fun y z hyz => ?_) _ _ (hdirs hx').2
    obtain ⟨j, q, hq, hsub, hz⟩ := hyz
    have hqp : q ≠ p := by
      rintro rfl
      rw [isSub_of_isLive hf.isLive] at hsub
      cases hsub
    exact ⟨j, q, by rw [place_setSlot, hq], by rw [slot_setSlot_of_ne _ _ hqp, hsub], by rw [slot_setSlot_of_ne _ _ hqp, hz]⟩
  · cases hq : v.place fs d k with
    | none => rw [seen, hq]; rfl
    | some q =>
      obtain ⟨hq', hslot⟩ := hplace hd hq
      obtain rfl := Option.some.inj (hq'.symm.trans hf.place)
      rw [seen_place hq, if_neg]
      intro hv'
      have hfree := hf.free
      rw [hslot, isFree_of_isVisible hv'] at hfree
      cases hfree
  · rw [seen_place (by rw [place_setSlot, hf.place]), slot_setSlot_self, if_pos hvis]
  · intro x i hx' hne
    -- another index is another place
    have hother : ∀ {q}, u.place fs x i = some q → (u.setSlot p e).slot q = u.slot q := by
      intro q hq
      refine slot_setSlot_of_ne _ _ ?_
      rintro rfl
      have hxd := t.dir_unique (hdirs hx').2 (hdirs hd).2 hq hf.place
      subst hxd
      exact hne.elim (fun hc => hc rfl) fun hc => hc (t.index_inj h (hdirs hx').2 hq hf.place)
    cases hq : v.place fs x i with
    | some q =>
      obtain ⟨hq', hslot⟩ := hplace hx' hq
      rw [seen_place hq, seen_place (by rw [place_setSlot, hq']), hother hq', hslot]
    | none =>
      have hnone : v.seen fs x i = none := by
        rw [seen, hq]
        rfl
      rw [hnone]
      cases hq₁ : v₁.place fs x i with
      | none =>
        rw [seen, place_setSlot, hs.place x (hdirs hx').1, hq₁]
        rfl
      | some q =>
        -- a record of the new cluster ends the directory
        obtain ⟨-, hend⟩ := hx.fresh x hx' i q hq hq₁
        have hq' : u.place fs x i = some q := by rw [hs.place x (hdirs hx').1, hq₁]
        rw [seen_place (by rw [place_setSlot, hq']), hother hq', hs.slot x i q (hdirs hx').1 hq₁, if_neg]
        intro hv'
        rw [isEnd_of_isFree (isFree_of_isVisible hv')] at hend
        cases hend
  · rw [name_trunc, hname]
  · rw [isDirectory_congr attr_trunc, hdir]
  · rw [size_trunc, hsize]

/-! ## The two readings of a path -/

theorem splitSlash_eq (hs : slash ∉ name) : splitSlash (dir ++ slash :: name) = (dir, name) := by
  obtain ⟨hleaf, hdir⟩ := behind_last (s := dir) hs
  simp only [splitSlash, hleaf, hdir]

/-- A name is its base, or its base, the last dot and its extension. -/
theorem splitDot_join (name : Text) : (dot ∉ name ∧ splitDot name = (name, [])) ∨
    dot ∉ (splitDot name).2 ∧ name = (splitDot name).1 ++ dot :: (splitDot name).2 := by
  by_cases hd : dot ∈ name
  · right
    obtain ⟨post, pre, hrev, hpost⟩ := eq_append_cons_of_mem (mem_reverse.2 hd)
    have hname : name = pre.reverse ++ dot :: post.reverse := by
      rw [← reverse_reverse name, hrev]
      simp
    obtain ⟨hext, hbase⟩ := behind_last (show dot ∉ post.reverse by simpa using hpost)
    have hsplit : splitDot name = (pre.reverse, post.reverse) := by
      rw [hname, splitDot, if_pos (by simp), hext]
      dsimp only
      rw [hbase]
    rw [hsplit]
    exact ⟨by simpa using hpost, hname⟩
  · exact .inl ⟨hd, by rw [splitDot, if_neg hd]⟩

theorem nameTo83_text (hn : nameTo83 name = some fatName) : slash ∉ name ∧ name ≠ [] ∧ name.length ≤ 12 := by
  obtain ⟨-, hne, hbase, hext, hgb, hgx, -⟩ := nameTo83_eq hn
  have hslash : goodChar slash = false := by decide
  have hb : slash ∉ (splitDot name).1 := fun hm => by simp [hgb _ hm] at hslash
  have hx : slash ∉ (splitDot name).2 := fun hm => by simp [hgx _ hm] at hslash
  rcases splitDot_join name with ⟨-, hs⟩ | ⟨-, hs⟩
  · simp only [hs] at hb hne hbase
    exact ⟨hb, hne, by omega⟩
  · have hlen := congrArg length hs
    simp only [length_append, length_cons] at hlen
    refine ⟨fun hm => ?_, ?_, by omega⟩
    · rw [hs] at hm
      simp only [mem_append, mem_cons] at hm
      rcases hm with hm | hm | hm
      · exact hb hm
      · exact absurd hm (by decide)
      · exact hx hm
    · rintro rfl
      simp at hlen

/-! ## Names made and read back -/

def dropDot (name : Text) : Text := if name.getLast? = some dot then name.dropLast else name

/-- **A name read back** is the name in lower case, without a trailing dot. -/
theorem nameFrom83_dropDot (hn : nameTo83 name = some fatName) : nameFrom83 (ofList fatName) = (dropDot name).map tolower := by
  obtain ⟨-, hne, hbase, hext, -, -, hfat⟩ := nameTo83_eq hn
  have hlen : fatName.length = 11 := by rw [hfat, length_append, padded_length hbase, padded_length hext]
  rw [nameFrom83_nameTo83 hn (name_ofList hlen)]
  rcases splitDot_join name with ⟨hdot, hs⟩ | ⟨hdot, hs⟩
  · have hlast : name.getLast? ≠ some dot := fun hl => hdot (mem_of_getLast? hl)
    rw [dropDot, if_neg hlast, hs]
    simp
  · by_cases hnil : (splitDot name).2 = []
    · rw [hnil] at hs ⊢
      conv_rhs => rw [hs]
      simp [dropDot]
    · have hlast : name.getLast? ≠ some dot := by
        intro hl
        rw [hs, getLast?_append, getLast?_cons_of_ne_nil hnil] at hl
        cases hx : (splitDot name).2.getLast? with
        | none => exact hnil (getLast?_eq_none_iff.1 hx)
        | some c =>
          rw [hx, some_or, some_inj] at hl
          exact hdot (hl ▸ mem_of_getLast? hx)
      rw [dropDot, if_neg hlast, if_neg hnil]
      conv_rhs => rw [hs]
      rw [map_append, map_cons]
      rfl

theorem toupper_eq_erased {c : UInt8} : toupper c = 0xE5 ↔ c = 0xE5 := by
  simp only [← UInt8.toNat_inj, toupper_toNat, UInt8.reduceToNat]
  split <;> omega

theorem head_nameTo83 (hn : nameTo83 name = some fatName) : fatName.head? = name.head?.map toupper := by
  obtain ⟨-, hne, -, -, -, -, rfl⟩ := nameTo83_eq hn
  obtain ⟨c, base, hbase⟩ := exists_cons_of_ne_nil hne
  have hhead : name.head? = some c := by
    rcases splitDot_join name with ⟨-, hs⟩ | ⟨-, hs⟩
    · rw [hs] at hbase
      rw [show name = c :: base from hbase]
      rfl
    · rw [hs, hbase]
      rfl
  rw [hhead, hbase]
  rfl

/-- Which names become that of a dot or a deleted record. -/
theorem reserved_iff (hn : nameTo83 name = some fatName) : reserved fatName = true ↔ name.head? = some 0xE5 ∨ name = [dot, dot, dot] := by
  have hlen : fatName.length = 11 := by
    obtain ⟨-, -, hbase, hext, -, -, hfat⟩ := nameTo83_eq hn
    rw [hfat, length_append, padded_length hbase, padded_length hext]
  have hhead : fatName.head? = some 0xE5 ↔ name.head? = some 0xE5 := by
    rw [head_nameTo83 hn, map_eq_some_iff]
    constructor
    · rintro ⟨c, hc, hup⟩
      rw [hc, toupper_eq_erased.1 hup]
    · intro hc
      exact ⟨_, hc, toupper_eq_erased.2 rfl⟩
  have hdot : Entry.isDot (ofList fatName) = true ↔ name = [dot, dot, dot] := by
    rw [Entry.isDot, Bool.or_eq_true, beq_iff_eq, beq_iff_eq]
    constructor
    · rintro (hone | htwo)
      · exact absurd hone (nameTo83_ne_dot hn (name_ofList hlen))
      · rw [nameFrom83_dropDot hn] at htwo
        have hdrop : dropDot name = [dot, dot] := map_tolower_dots (n := 2) htwo
        obtain ⟨hdd, -⟩ := nameTo83_eq hn
        rw [dropDot] at hdrop
        split at hdrop
        · rename_i hlast
          rw [← dropLast_append_getLast? dot hlast, hdrop]
          rfl
        · exact absurd hdrop hdd
    · rintro rfl
      right
      rw [nameFrom83_dropDot hn]
      decide
  rw [reserved, Bool.or_eq_true, beq_iff_eq, hhead, hdot]

/-! ## `fat16_create`, then a lookup and a listing -/

/-- What a path leads to, and what its directory lists, after a create that succeeded. -/
structure Shown (fs : Fs) (v w : Vol) (path : Text) (fatName : Text) (directory : Bool) (f : Found) : Prop where
  found : Prog.run (Vol.step fs) (pathLookup fs path) w = (some f, w)
  name : f.entry.name = fatName
  kind : f.entry.isDirectory = directory
  empty : f.entry.size = 0
  fresh : v.seen fs f.dirCluster f.index = none
  listed : ∃ l l', Prog.run (Vol.step fs) (readdir fs (parentText path)) v = (some l, v) ∧
    Prog.run (Vol.step fs) (readdir fs (parentText path)) w = (some l', w) ∧ l'.Perm (f.entry.listed :: l)

theorem run_readdir (h : fs.Ok) (t : v.Tree fs) (hd : v.Dir fs f.entry.firstCluster) (hf : f.entry.isDirectory = true)
    (hrun : run (Vol.step fs) (pathLookup fs path) v = (some f, v)) :
    run (Vol.step fs) (readdir fs path) v =
      (some ((range' 0 (dirMax fs f.entry.firstCluster)).filterMap fun j => (v.seen fs f.entry.firstCluster j).map Entry.listed), v) := by
  rw [readdir, run_bind, hrun]
  simp only [run_ite]
  rw [if_neg (by simp [hf]), run_bind, run_readdirFrom h (t.sound h hd) (t.ended _ hd) _ 0 (Nat.zero_add _)]
  rfl

theorem pathLookup_eq {text : Text} (hm : fs.mounted = true) (hne : text ≠ []) :
    pathLookup fs (slash :: text) = lookupFrom fs 0 (pathTokens (slash :: text)) := by
  rw [pathLookup, if_neg (by simp [hm]), if_neg (by simpa using hne)]

theorem pathLookup_root (hm : fs.mounted = true) : pathLookup fs [slash] = pure (some rootFound) := by
  rw [pathLookup, if_neg (by simp [hm]), if_pos rfl]

theorem parentText_eq (hs : slash ∉ name) (hlen : (dir ++ slash :: name).length < PUREUNIX_MAX_PATH) :
    parentText (dir ++ slash :: name) = if dir = [] then [slash] else dir := by
  rw [parentText, take_of_length_le (by omega), splitSlash_eq hs]

theorem leafText_eq (hs : slash ∉ name) (hname : name.length ≤ 12) (hlen : (dir ++ slash :: name).length < PUREUNIX_MAX_PATH) :
    leafText (dir ++ slash :: name) = name := by
  have htake : (dir ++ slash :: name).take (PUREUNIX_MAX_PATH - 1) = dir ++ slash :: name := take_of_length_le (by omega)
  rw [leafText, htake, splitSlash_eq hs]
  exact take_of_length_le (hname.trans (by decide))

/-- After a record was added, its directory is found as before, and its path leads to it. -/
theorem Vol.Adds.run_paths (ha : Vol.Adds fs v w d k e) (habs : v.Absent fs d e.name) (h : fs.Ok) (t : v.Tree fs) (hdots : v.Dots fs)
    (hn : nameTo83 name = some e.name) (hlen : (dir ++ slash :: name).length < PUREUNIX_MAX_PATH)
    (hpar : run (step fs) (pathParent fs (dir ++ slash :: name)) v = (some f, v)) (hfd : f.entry.isDirectory = true)
    (hd : f.entry.firstCluster = d) :
    run (step fs) (pathLookup fs (parentText (dir ++ slash :: name))) v = (some f, v) ∧
    run (step fs) (pathLookup fs (parentText (dir ++ slash :: name))) w = (some f, w) ∧
    run (step fs) (pathLookup fs (dir ++ slash :: name)) w = (some ⟨e, d, k⟩, w) := by
  obtain ⟨hs, hne, hshort⟩ := nameTo83_text hn
  have hnew := ha.run_lookup_new habs h hn
  rw [pathParent, run_ite] at hpar
  split at hpar
  · cases hpar
  rename_i habsolute
  push Not at habsolute
  rw [parentText_eq hs hlen] at hpar ⊢
  have hm : fs.mounted = true := by
    cases hm : fs.mounted with
    | true => rfl
    | false =>
      rw [pathLookup, if_pos (.inl hm)] at hpar
      cases hpar
  -- the root directory, reached as "/"
  have hroot : run (step fs) (pathLookup fs [slash]) v = (some f, v) → d = 0 ∧ run (step fs) (pathLookup fs [slash]) w = (some f, w) := by
    intro hrun
    rw [pathLookup_root hm] at hrun
    obtain rfl : rootFound = f := Option.some.inj (congrArg Prod.fst hrun)
    refine ⟨hd.symm, ?_⟩
    rw [pathLookup_root hm]
    rfl
  cases dir with
  | nil =>
    obtain ⟨rfl, hw⟩ := hroot hpar
    refine ⟨hpar, hw, ?_⟩
    rw [nil_append, pathLookup_eq hm hne, pathTokens_single hs hne hlen]
    exact hnew
  | cons c dir =>
    obtain rfl : c = slash := by simpa using habsolute.1
    rw [if_neg (by simp)] at hpar ⊢
    have hpath : pathLookup fs (slash :: dir ++ slash :: name) = lookupFrom fs 0 (pathTokens (slash :: dir) ++ [name]) := by
      rw [cons_append, pathLookup_eq hm (by simp), ← cons_append, pathTokens_snoc hs hne hlen]
    rw [hpath]
    by_cases hdir : dir = []
    · subst hdir
      obtain ⟨rfl, hw⟩ := hroot hpar
      exact ⟨hpar, hw, hnew⟩
    rw [pathLookup_eq hm hdir] at hpar ⊢
    have hleads : ∀ tok ∈ pathTokens (slash :: dir), v.Leads fs tok :=
      fun tok _ fatName _ x i p hx hp hv _ hsub => hdots.leads hx hp hv hsub
    obtain ⟨h1, h2⟩ := ha.run_lookup_snoc habs h t name .refl hleads hpar
    refine ⟨hpar, h1, ?_⟩
    rw [h2 hfd, hd]
    exact hnew

theorem Vol.Adds.shown (ha : Vol.Adds fs v w d k e) (habs : v.Absent fs d e.name) (h : fs.Ok) (t : v.Tree fs) (hdots : v.Dots fs)
    (hn : nameTo83 name = some e.name) (hsize : e.size = 0) (hlen : (dir ++ slash :: name).length < PUREUNIX_MAX_PATH)
    (hpar : run (Vol.step fs) (pathParent fs (dir ++ slash :: name)) v = (some f, v)) (hfd : f.entry.isDirectory = true)
    (hd : f.entry.firstCluster = d) : Shown fs v w (dir ++ slash :: name) e.name e.isDirectory ⟨e, d, k⟩ := by
  obtain ⟨hv, hw, hfound⟩ := ha.run_paths habs h t hdots hn hlen hpar hfd hd
  subst hd
  refine ⟨hfound, rfl, rfl, hsize, ha.old, _, _, run_readdir h t ha.home hfd hv, run_readdir h ha.tree (ha.dir _ ha.home) hfd hw, ?_⟩
  exact ha.listed

/-- **A create that succeeds is seen.** -/
theorem run_create (h : fs.Ok) (hv : v.Consistent fs) (hdots : v.Dots fs) (hn : nameTo83 name = some fatName) (hgood : GoodName fatName)
    (hlen : (dir ++ slash :: name).length < PUREUNIX_MAX_PATH) (directory : Bool) :
    ∃ rc w, run (Vol.step fs) (create fs (dir ++ slash :: name) directory) v = (rc, w) ∧ w.Consistent fs ∧
      (rc = 0 → ∃ f, Shown fs v w (dir ++ slash :: name) fatName directory f) := by
  obtain ⟨hs, hne, hshort⟩ := nameTo83_text hn
  have hpar : ∃ r, run (Vol.step fs) (pathParent fs (dir ++ slash :: name)) v = (r, v) ∧
      ∀ g, r = some g → g.entry.isDirectory = true → v.Dir fs g.entry.firstCluster := by
    rw [pathParent, run_ite]
    split
    · exact ⟨none, rfl, by simp⟩
    · obtain ⟨r, hr, hfound⟩ := run_lookup_dots h hv.toTree hdots (parentText (dir ++ slash :: name))
      exact ⟨r, hr, fun g hg => (hfound g hg).2⟩
  obtain ⟨r, hr, hdir⟩ := hpar
  rw [create, run_bind, hr, leafText_eq hs hshort hlen, hn]
  cases r with
  | none => exact ⟨-1, v, rfl, hv, fun h0 => absurd h0 (by decide)⟩
  | some parent =>
    simp only [run_ite]
    by_cases hpd : parent.entry.isDirectory = true
    · rw [if_neg (by simp [hpd])]
      obtain ⟨rc, w, hrun, hw, hcreated⟩ := run_createIn h hv (hdir parent rfl hpd) hgood directory
      refine ⟨rc, w, hrun, hw, fun h0 => ?_⟩
      obtain ⟨habs, k, e, ha, rfl, rfl, hsize⟩ := (hcreated h0).adds h (hdir parent rfl hpd) hw.toTree
      exact ⟨_, ha.shown habs h hv.toTree hdots hn hsize hlen hr hpd rfl⟩
    · rw [if_pos (by simpa using hpd)]
      exact ⟨-1, v, rfl, hv, fun h0 => absurd h0 (by decide)⟩

/-- On the disk: the path leads to a record that was not there, and the directory lists it besides what it listed. -/
structure ShownOnDisk (fs : Fs) (disk disk' : Disk) (path : Text) (fatName : Text) (directory : Bool) (f : Found) : Prop where
  found : (onDisk fs (pathLookup fs path) disk').1 = some f
  name : f.entry.name = fatName
  kind : f.entry.isDirectory = directory
  empty : f.entry.size = 0
  fresh : (disk.vol fs).seen fs f.dirCluster f.index = none
  listed : ∃ l l', (onDisk fs (readdir fs (parentText path)) disk).1 = some l ∧
    (onDisk fs (readdir fs (parentText path)) disk').1 = some l' ∧ l'.Perm (f.entry.listed :: l)

theorem create_shown {disk : Disk} (h : fs.Ok) (hd : disk.Consistent fs) (hdots : (disk.vol fs).Dots fs) (hn : nameTo83 name = some fatName)
    (hgood : GoodName fatName) (hlen : (dir ++ slash :: name).length < PUREUNIX_MAX_PATH)
    (hrc : (onDisk fs (create fs (dir ++ slash :: name) directory) disk).1 = 0) :
    ∃ f, ShownOnDisk fs disk (onDisk fs (create fs (dir ++ slash :: name) directory) disk).2 (dir ++ slash :: name) fatName directory f := by
  have hdec : Decodes fs disk (disk.vol fs) := ⟨hd.mirrored, rfl⟩
  obtain ⟨rc, w, hrun, hw, hshown⟩ := run_create h hd.vol hdots hn hgood hlen directory
  obtain ⟨hans, hdec'⟩ := onDisk_simulates h (create fs (dir ++ slash :: name) directory) hdec (by rw [hrun]; exact hw.wild)
  rw [hrun] at hans hdec'
  obtain ⟨f, hf⟩ := hshown (hans.symm.trans hrc)
  obtain ⟨l, l', hl, hl', hperm⟩ := hf.listed
  refine ⟨f, ?_, hf.name, hf.kind, hf.empty, hf.fresh, l, l', ?_, ?_, hperm⟩
  · rw [(onDisk_simulates h _ hdec' (by rw [hf.found]; exact hw.wild)).1, hf.found]
  · rw [(onDisk_simulates h _ hdec (by rw [hl]; exact hd.vol.wild)).1, hl]
  · rw [(onDisk_simulates h _ hdec' (by rw [hl']; exact hw.wild)).1, hl']

/-- **A name encoded without collisions**: its 11 bytes are no dot record's and no free one's, only the same name in another
case or with a trailing dot has them, they read back as the name, and a file or directory created under the name appears. -/
structure CleanName (name : Text) (fatName : Text) : Prop where
  notDots : fatName ≠ dotName ∧ fatName ≠ dotdotName
  notFree : fatName.head? ≠ some 0x00 ∧ fatName.head? ≠ some 0xE5
  unique : ∀ other, nameTo83 other = some fatName → (dropDot other).map tolower = (dropDot name).map tolower
  back : nameFrom83 (ofList fatName) = (dropDot name).map tolower
  created : ∀ (fs : Fs) (disk : Disk) (dir : Text) (directory : Bool), fs.Ok → disk.Consistent fs → (disk.vol fs).Dots fs →
    (dir ++ slash :: name).length < PUREUNIX_MAX_PATH → (onDisk fs (create fs (dir ++ slash :: name) directory) disk).1 = 0 →
    ∃ f, ShownOnDisk fs disk (onDisk fs (create fs (dir ++ slash :: name) directory) disk).2 (dir ++ slash :: name) fatName directory f

/-- **Which names are encoded without collisions.** -/
theorem cleanName_iff (h0 : 0 ∉ name) (hn : nameTo83 name = some fatName) :
    CleanName name fatName ↔ name.head? ≠ some 0xE5 ∧ name ≠ [dot, dot, dot] := by
  obtain ⟨hlen, hzero⟩ := nameTo83_spec hn h0
  constructor
  · intro hc
    constructor
    · intro hhead
      apply hc.notFree.2
      rw [head_nameTo83 hn, hhead]
      rfl
    · rintro rfl
      apply hc.notDots.2
      have hdots : nameTo83 [dot, dot, dot] = some dotdotName := by decide
      exact Option.some.inj (hn.symm.trans hdots)
  · intro hcond
    have hplain : reserved fatName = false := by
      rw [← Bool.not_eq_true, reserved_iff hn, not_or]
      exact hcond
    have hnot : ∀ {other : Text}, reserved other = true → fatName ≠ other := by
      rintro other hother rfl
      rw [hplain] at hother
      cases hother
    refine ⟨⟨hnot (by decide), hnot (by decide)⟩, ⟨hzero, ?_⟩, ?_, nameFrom83_dropDot hn, ?_⟩
    · intro hhead
      rw [head_nameTo83 hn, map_eq_some_iff] at hhead
      obtain ⟨c, hc, hup⟩ := hhead
      exact hcond.1 (by rw [hc, toupper_eq_erased.1 hup])
    · intro other ho
      rw [← nameFrom83_dropDot ho, nameFrom83_dropDot hn]
    · intro fs disk dir directory h hd hdots hfit hrc
      exact create_shown h hd hdots hn ⟨hlen, hzero, hplain⟩ hfit hrc

end

theorem cleanName_C : nameTo83 [67] = some [67, 32, 32, 32, 32, 32, 32, 32, 32, 32, 32] ∧ CleanName [67] [67, 32, 32, 32, 32, 32, 32, 32, 32, 32, 32] :=
  ⟨by decide, (cleanName_iff (by decide) (by decide)).2 (by decide)⟩

/-- A file created under the name `0xE5`, 'a' is not found under it, and "..." is encoded as ".." is. -/
theorem create_not_found : smallDisk.Consistent smallFs ∧ (smallDisk.vol smallFs).Dots smallFs ∧
      nameTo83 [0xE5, 97] = some [0xE5, 65, 32, 32, 32, 32, 32, 32, 32, 32, 32] ∧
      (onDisk smallFs (create smallFs [slash, 0xE5, 97] false) smallDisk).1 = 0 ∧
      (onDisk smallFs (pathLookup smallFs [slash, 0xE5, 97]) (onDisk smallFs (create smallFs [slash, 0xE5, 97] false) smallDisk).2).1.isNone = true ∧
      nameTo83 [dot, dot, dot] = some dotdotName ∧
      ¬ CleanName [0xE5, 97] [0xE5, 65, 32, 32, 32, 32, 32, 32, 32, 32, 32] ∧ ¬ CleanName [dot, dot, dot] dotdotName := by
  refine ⟨smallDisk_consistent, Small.dots, by decide, by decide +kernel, by decide +kernel, by decide, fun hc => ?_, fun hc => hc.notDots.2 rfl⟩
  exact hc.notFree.2 rfl

end PureUnix.Fat16
