import Kennel.Cli.Disk

/-!
# Places that paths lead to

A path is a directory part, which is empty or ends with a slash, and the name of a file. Where there
are no links, the name alone decides where in its directory a path leads (`Disk.Plain.locate_name`).
Then the listing of a file goes to another place than the file, unless the file has the name of a
listing already (`Disk.Plain.isListing`).
-/

namespace Kennel.Cli

namespace Path

/-- The characters in front of the name of a file: none, or all up to a slash. -/
inductive IsDirectory : List Char → Prop
  | here : IsDirectory []
  | slash (cs : List Char) : IsDirectory (cs ++ ['/'])

/-- The file has the extension `s`, behind more than a dot. -/
def IsListing (path : String) : Prop :=
  ∃ dir stem, path = String.ofList (dir ++ (stem ++ ['.', 's'])) ∧ IsDirectory dir ∧ '/' ∉ stem ∧
    stem ≠ [] ∧ stem ≠ ['.']

/-! ## Components -/

theorem split_ne_nil (cs : List Char) : split cs ≠ [] := by
  cases cs with
  | nil => exact List.cons_ne_nil _ _
  | cons c cs =>
    unfold split
    split
    · exact List.cons_ne_nil _ _
    · split <;> exact List.cons_ne_nil _ _

theorem split_of_not_mem {name : List Char} (h : '/' ∉ name) : split name = [name] := by
  induction name with
  | nil => rfl
  | cons c cs ih =>
    rw [List.mem_cons, not_or] at h
    rw [split, if_neg (Ne.symm h.1), ih h.2]

theorem split_slash (cs ds : List Char) : split (cs ++ '/' :: ds) = split cs ++ split ds := by
  induction cs with
  | nil => rfl
  | cons c cs ih =>
    rw [List.cons_append, split, split, ih]
    by_cases hc : c = '/'
    · simp only [if_pos hc, List.cons_append]
    · simp only [if_neg hc]
      cases hs : split cs with
      | nil => exact absurd hs (split_ne_nil cs)
      | cons p ps => rfl

/-! ## The path of a listing -/

theorem exists_directory (path : String) :
    ∃ dir name, path = String.ofList (dir ++ name) ∧ IsDirectory dir ∧ '/' ∉ name := by
  generalize hcs : path.toList = cs
  have hpath : path = String.ofList cs := by rw [← hcs, String.ofList_toList]
  subst hpath
  clear hcs
  induction cs with
  | nil => exact ⟨[], [], rfl, .here, by simp⟩
  | cons c cs ih =>
    obtain ⟨dir, name, hcs, hdir, hname⟩ := ih
    rw [String.ofList_inj] at hcs
    subst hcs
    cases hdir with
    | slash ds => exact ⟨c :: ds ++ ['/'], name, rfl, .slash (c :: ds), hname⟩
    | here =>
      by_cases hc : c = '/'
      · exact ⟨[c], name, rfl, hc ▸ .slash [], hname⟩
      · exact ⟨[], c :: name, rfl, .here, by simp [Ne.symm hc, hname]⟩

/-- The name of the listing of a file. -/
def listingName (name : List Char) : List Char := (toListingRev name.reverse).reverse

theorem listing_append {dir name : List Char} (hdir : IsDirectory dir) (hname : '/' ∉ name) :
    listing (String.ofList (dir ++ name)) = String.ofList (dir ++ listingName name) := by
  have hstop : ∀ c ∈ name.reverse, (c != '/') = true := by
    intro c hc
    rw [bne_iff_ne]
    rintro rfl
    exact hname (List.mem_reverse.mp hc)
  have hcut : (dir.reverse.takeWhile (· != '/')) = [] ∧ dir.reverse.dropWhile (· != '/') =
      dir.reverse := by
    cases hdir with
    | here => exact ⟨rfl, rfl⟩
    | slash cs => simp
  simp only [listing, String.toList_ofList, List.reverse_append,
    List.takeWhile_append_of_pos hstop, List.dropWhile_append_of_pos hstop, hcut,
    List.append_nil, List.reverse_reverse, listingName]

theorem listingName_listing {stem : List Char} (hstem : stem ≠ []) (hdot : stem ≠ ['.']) :
    listingName (stem ++ ['.', 's']) = stem ++ ['.', 's'] := by
  have hrev : (stem ++ ['.', 's']).reverse = 's' :: '.' :: stem.reverse := by simp
  have hdrop : ('s' :: '.' :: stem.reverse).dropWhile (· != '.') = '.' :: stem.reverse := by simp
  suffices hsame : toListingRev ('s' :: '.' :: stem.reverse) = 's' :: '.' :: stem.reverse by
    rw [listingName, hrev, hsame, ← hrev, List.reverse_reverse]
  unfold toListingRev
  rw [hdrop]
  split
  · next h => cases h
  · next h => exact absurd (List.reverse_eq_nil_iff.mp (List.cons.inj h).2) hstem
  · next h => exact absurd (List.reverse_eq_iff.mp (List.cons.inj h).2) hdot
  · rfl

/-- Only the name of a listing stays as it is. -/
theorem eq_of_listingName_eq {name : List Char} (h : listingName name = name)
    (hparent : name ≠ ['.', '.']) :
    ∃ stem, name = stem ++ ['.', 's'] ∧ stem ≠ [] ∧ stem ≠ ['.'] := by
  rw [listingName, List.reverse_eq_iff] at h
  have hfirst := List.head?_dropWhile_not (· != '.') name.reverse
  have hlonger : 's' :: '.' :: name.reverse ≠ name.reverse := by
    intro heq
    have hlen := congrArg List.length heq
    simp only [List.length_cons] at hlen
    omega
  unfold toListingRev at h
  split at h
  · exact absurd h hlonger
  · exact absurd h hlonger
  · exact absurd (List.reverse_eq_iff.mp h.symm) hparent
  · next hnil hdot hdots =>
    cases hdrop : name.reverse.dropWhile (· != '.') with
    | nil => exact absurd hdrop hnil
    | cons c stem =>
      rw [hdrop] at h hfirst
      obtain rfl : c = '.' := by simpa using hfirst
      refine ⟨stem.reverse, ?_, ?_, ?_⟩
      · rw [← List.reverse_reverse name, ← h]
        simp
      · exact fun hs => hdot (List.reverse_eq_nil_iff.mp hs ▸ hdrop)
      · intro hs
        obtain rfl : stem = ['.'] := List.reverse_eq_iff.mp hs
        exact hdots hdrop

theorem not_mem_listingName {name : List Char} (h : '/' ∉ name) : '/' ∉ listingName name := by
  have hrev : '/' ∉ name.reverse := by rwa [List.mem_reverse]
  have hdrop : '/' ∉ name.reverse.dropWhile (· != '.') := fun hmem =>
    hrev ((List.dropWhile_sublist _).subset hmem)
  rw [listingName, List.mem_reverse, toListingRev]
  split
  · simp [h]
  · simp [h]
  · decide
  · simp only [List.mem_cons, not_or]
    exact ⟨by decide, hdrop⟩

theorem IsListing.listing_eq {path : String} (h : IsListing path) : listing path = path := by
  obtain ⟨dir, stem, rfl, hdir, hslash, hstem, hdot⟩ := h
  rw [listing_append hdir (by simpa using hslash), listingName_listing hstem hdot]

end Path

namespace Disk

variable {d : Disk}

/-! ## Places -/

/-- There are no links, and directories tell names apart by their letters. -/
structure Plain (d : Disk) : Prop where
  links : d.links = []
  form : ∀ c c', d.form c = d.form c' → c = c'

theorem origin_ofList (here : Place) (cs : List Char) :
    origin here (String.ofList cs) = if cs.head? = some '/' then [] else here := by
  simp only [origin, String.toList_ofList]
  split
  · rfl
  · next hslash =>
    rw [if_neg]
    intro hhead
    obtain ⟨ds, rfl⟩ := List.head?_eq_some_iff.mp hhead
    exact hslash ds rfl

theorem follow_eq_walk (d : Disk) (hops : Nat) : ∃ jump, d.follow hops = d.walk jump := by
  cases hops with
  | zero => exact ⟨_, rfl⟩
  | succ hops => exact ⟨_, rfl⟩

/-- Paths with one directory part are followed in the same way up to their names. -/
theorem locate_append (d : Disk) {dir : List Char} (hdir : Path.IsDirectory dir) :
    ∃ jump here cs, ∀ name, '/' ∉ name →
      d.locate (String.ofList (dir ++ name)) = d.walk jump here (cs ++ [String.ofList name]) := by
  obtain ⟨jump, hfollow⟩ := d.follow_eq_walk d.hops
  simp only [locate, hfollow, origin_ofList, Path.components, String.toList_ofList]
  cases hdir with
  | here =>
    refine ⟨jump, d.home, [], fun name hname => ?_⟩
    have hhead : name.head? ≠ some '/' := fun h => hname (List.mem_of_mem_head? h)
    rw [List.nil_append, if_neg hhead, Path.split_of_not_mem hname]
    rfl
  | slash cs =>
    refine ⟨jump, if (cs ++ ['/']).head? = some '/' then [] else d.home,
      (Path.split cs).map String.ofList, fun name hname => ?_⟩
    have hfirst : (cs ++ ['/'] ++ name).head? = (cs ++ ['/']).head? := by
      cases cs <;> rfl
    rw [hfirst, List.append_assoc, List.singleton_append, Path.split_slash,
      Path.split_of_not_mem hname, List.map_append]
    rfl

namespace Plain

theorem walk_cons (hd : d.Plain) (jump : Place → List String → Option Place) (here : Place)
    (c : String) (rest : List String) :
    d.walk jump here (c :: rest) =
      if c = "" ∨ c = "." then d.walk jump here rest
      else if c = ".." then d.walk jump here.dropLast rest
      else if rest.isEmpty then some (here ++ [d.form c])
      else if d.isDir (here ++ [d.form c]) then d.walk jump (here ++ [d.form c]) rest
      else none := by
  simp only [walk, hd.links, List.lookup_nil]

theorem walk_singleton (hd : d.Plain) (jump : Place → List String → Option Place) (here : Place)
    (name : String) :
    d.walk jump here [name] =
      if name = "" ∨ name = "." ∨ name = ".." then none else some (here ++ [d.form name]) := by
  rw [hd.walk_cons]
  by_cases hdot : name = "" ∨ name = "."
  · rw [if_pos hdot, if_pos (hdot.imp_right .inl)]
    rfl
  · by_cases hup : name = ".."
    · rw [if_neg hdot, if_pos hup, if_pos (.inr (.inr hup))]
      rfl
    · have hname : ¬ (name = "" ∨ name = "." ∨ name = "..") := by
        rw [← or_assoc]
        exact not_or.mpr ⟨hdot, hup⟩
      rw [if_neg hdot, if_neg hup, if_neg hname]
      rfl

/-- The last component may be exchanged for any other name. -/
theorem walk_snoc (hd : d.Plain) {jump : Place → List String → Option Place} {here place : Place}
    {cs : List String} {name : String} (h : d.walk jump here (cs ++ [name]) = some place) :
    ∃ dir, place = dir ++ [d.form name] ∧ ∀ other, d.walk jump here (cs ++ [other]) =
      if other = "" ∨ other = "." ∨ other = ".." then none else some (dir ++ [d.form other]) := by
  induction cs generalizing here with
  | nil =>
    refine ⟨here, ?_, hd.walk_singleton jump here⟩
    rw [List.nil_append, hd.walk_singleton] at h
    split at h
    · cases h
    · exact (Option.some.inj h).symm
  | cons c cs ih =>
    have hmore : ∀ other, (cs ++ [other]).isEmpty = false := by simp
    simp only [List.cons_append, hd.walk_cons, hmore, Bool.false_eq_true, if_false] at h ⊢
    split at h
    · next hdot => simpa only [if_pos hdot] using ih h
    · next hdot =>
      split at h
      · next hup => simpa only [if_neg hdot, if_pos hup] using ih h
      · next hup =>
        split at h
        · next hdir => simpa only [if_neg hdot, if_neg hup, if_pos hdir] using ih h
        · cases h

/-- The name says where in its directory a file is. -/
theorem locate_name (hd : d.Plain) {dir name : List Char} {place : Place}
    (hdir : Path.IsDirectory dir) (hname : '/' ∉ name)
    (h : d.locate (String.ofList (dir ++ name)) = some place) :
    ∃ home, place = home ++ [d.form (String.ofList name)] ∧ ∀ other, '/' ∉ other →
      d.locate (String.ofList (dir ++ other)) =
        if String.ofList other = "" ∨ String.ofList other = "." ∨ String.ofList other = ".." then
          none
        else some (home ++ [d.form (String.ofList other)]) := by
  obtain ⟨jump, here, cs, hwalk⟩ := d.locate_append hdir
  rw [hwalk name hname] at h
  obtain ⟨home, hplace, hother⟩ := hd.walk_snoc h
  refine ⟨home, hplace, fun other hslash => ?_⟩
  rw [hwalk other hslash, hother]

/-- The listing of a file goes to the place of the file only if it has a listing's name. -/
theorem isListing (hd : d.Plain) {path : String} {place : Place}
    (h : d.locate path = some place) (hlisting : d.locate (Path.listing path) = some place) :
    Path.IsListing path := by
  obtain ⟨dir, name, rfl, hdir, hname⟩ := Path.exists_directory path
  obtain ⟨home, rfl, hother⟩ := hd.locate_name hdir hname h
  rw [Path.listing_append hdir hname, hother _ (Path.not_mem_listingName hname)] at hlisting
  have hparent : name ≠ ['.', '.'] := by
    rintro rfl
    rw [hother _ hname, if_pos (.inr (.inr rfl))] at h
    cases h
  split at hlisting
  · cases hlisting
  · have hform : d.form (String.ofList (Path.listingName name)) = d.form (String.ofList name) := by
      simpa using hlisting
    have hsame : Path.listingName name = name := String.ofList_inj.mp (hd.form _ _ hform)
    obtain ⟨stem, rfl, hstem, hdot⟩ := Path.eq_of_listingName_eq hsame hparent
    exact ⟨dir, stem, rfl, hdir, by simpa using hname, hstem, hdot⟩

end Plain

/-! ## Contents -/

/-- The file at a place has these contents in `d'`, and all else is as in `d`. -/
structure Saved (d d' : Disk) (place : Place) (contents : ByteArray) : Prop where
  here : d'.file? place = some contents
  elsewhere : ∀ other, other ≠ place → d'.file? other = d.file? other
  outside : { d' with tree := { d'.tree with files := d.tree.files } } = d

theorem lookup_put (p q : Place) (contents : ByteArray) (files : List (Place × ByteArray)) :
    (Tree.put p contents files).lookup q = if q = p then some contents else files.lookup q := by
  have hcons : ∀ (r : Place) (bytes : ByteArray) (rest : List (Place × ByteArray)),
      ((r, bytes) :: rest).lookup q = if q = r then some bytes else rest.lookup q := by
    intro r bytes rest
    by_cases hq : q = r
    · rw [hq, List.lookup_cons_self, if_pos rfl]
    · rw [List.lookup_cons, beq_false_of_ne hq, if_neg hq]
  induction files with
  | nil => rw [Tree.put, hcons]
  | cons f files ih =>
    obtain ⟨r, bytes⟩ := f
    unfold Tree.put
    split
    · next hr =>
      obtain rfl : r = p := hr
      rw [hcons, hcons]
      split <;> rfl
    · next hr =>
      rw [hcons, hcons, ih]
      by_cases hq : q = r
      · have hqp : q ≠ p := fun h => hr (hq.symm.trans h)
        rw [if_pos hq, if_neg hqp, if_pos hq]
      · rw [if_neg hq, if_neg hq]

theorem saved_put (d : Disk) (place : Place) (contents : ByteArray) :
    d.Saved (d.put place contents) place contents where
  here := (lookup_put ..).trans (if_pos rfl)
  elsewhere := fun _ hne => (lookup_put ..).trans (if_neg hne)
  outside := rfl

theorem saved_of_write? {d' : Disk} {path : String} {contents : ByteArray}
    (h : d.write? path contents = some d') :
    ∃ place, d.locate path = some place ∧ d.isDir place = false ∧ d.Saved d' place contents := by
  unfold write? at h
  split at h
  · cases h
  · next place hplace =>
    split at h
    · cases h
    · next hdir =>
      cases h
      exact ⟨place, hplace, by simpa using hdir, d.saved_put place contents⟩

theorem write?_eq_some {path : String} {place : Place} (hplace : d.locate path = some place)
    (hdir : d.isDir place = false) (contents : ByteArray) :
    d.write? path contents = some (d.put place contents) := by
  simp only [write?, hplace, hdir, Bool.false_eq_true, if_false]

end Disk

end Kennel.Cli
