import Cnpv.Config.Model
import Cnpv.Agent.Spelling
import Mathlib.Algebra.Order.BigOperators.Group.List
import Mathlib.Tactic.Choose

/-!
# Directory rules

A path that ends in `/` stands for the files below the directory. `get_dir_content` puts the name
of a subdirectory after the path without a `/`, so below a subdirectory `b` it builds names such as
`/d/bf` for `/d/b/f`, and looks for its subdirectories under such names. It ends, and the rules are
those of the files below the directory if and only if no file lies below a subdirectory
(`getDirContent_iff`).

The directories that it reads have names of the form `D ++ w`, where `w` is a name without `/`: the
directory `D` itself, or a subdirectory of `D`, whose name `w` is longer at each level. This bounds
the depth of the recursion.
-/

namespace Cnpv

open CLib

/-- What a name in a directory stands for: a file (anything that is not a directory), or a directory
with its entries. -/
inductive FileTree
  | file
  | dir (entries : List (CStr × FileTree))

def FileTree.isDir : FileTree → Bool
  | .file => false
  | .dir _ => true

/-- The entries of a directory. -/
abbrev Entries := List (CStr × FileTree)

/-- `rel` is the relative path of a file below a directory. -/
inductive IsFile : Entries → List CStr → Prop
  | here {es : Entries} {n : CStr} : (n, .file) ∈ es → IsFile es [n]
  | down {es es' : Entries} {n : CStr} {rel : List CStr} :
      (n, .dir es') ∈ es → IsFile es' rel → IsFile es (n :: rel)

/-- `rel` is the relative path of a directory, with the entries `es'`. -/
inductive IsDir : Entries → List CStr → Entries → Prop
  | here {es : Entries} : IsDir es [] es
  | down {es es' es'' : Entries} {n : CStr} {rel : List CStr} :
      (n, .dir es') ∈ es → IsDir es' rel es'' → IsDir es (n :: rel) es''

/-- The relative path with `/` between its names. -/
def joinPath : List CStr → CStr
  | [] => default
  | [n] => n
  | n :: rel => n ++ slash ++ joinPath rel

/-- The name of a directory entry. -/
structure EntryName (n : CStr) : Prop where
  ne_nil : n.bytes ≠ []
  bare : Bare n
  ne_dot : n ≠ dot
  ne_dotDot : n ≠ dotDot

/-- The directory listing `l` has the entries `es`, in some order, with `.` and `..`. -/
def Lists (l : List Dirent) (es : Entries) : Prop :=
  l.Perm (⟨dot, true⟩ :: ⟨dotDot, true⟩ :: es.map fun e => ⟨e.1, e.2.isDir⟩)

/-- The directory `D` has the tree `es` below it, as `opendir` and `readdir` see it. -/
structure Mounted (opendir : CStr → Option (List Dirent)) (D : CStr) (es : Entries) : Prop where
  ends : D.bytes.getLast? = some '/'.toUInt8
  names : ∀ rel es', IsDir es rel es' → ∀ e ∈ es', EntryName e.1
  listed : ∀ rel es', IsDir es rel es' →
    ∃ l, Lists l es' ∧ opendir (D ++ joinPath rel) = some l
  listed_slash : ∀ rel es', rel ≠ [] → IsDir es rel es' →
    ∃ l, Lists l es' ∧ opendir (D ++ joinPath rel ++ slash) = some l
  /-- A name that no subdirectory has cannot be opened. -/
  missing : ∀ n, EntryName n → (∀ es', (n, .dir es') ∉ es) → opendir (D ++ n) = none

variable {opendir : CStr → Option (List Dirent)} {D w n m : CStr} {es es' : Entries} {size fuel : Nat}
  {permission : CInt}

theorem EntryName.append (hn : EntryName n) (hm : EntryName m) : EntryName (n ++ m) where
  ne_nil := by simp [hn.ne_nil]
  bare := by simp [Bare, not_or.mpr ⟨hn.bare, hm.bare⟩]
  ne_dot e := by
    have hlen := congrArg CStr.strlen e
    have h₁ := List.length_pos_iff.mpr hn.ne_nil
    have h₂ := List.length_pos_iff.mpr hm.ne_nil
    have hdot : dot.strlen = 1 := by decide
    rw [CStr.strlen_append, hdot] at hlen
    unfold CStr.strlen at hlen
    omega
  ne_dotDot e := by
    -- The first of two names that make `..` is `.`.
    have hbytes : n.bytes ++ m.bytes = ['.'.toUInt8] ++ ['.'.toUInt8] := congrArg CStr.bytes e
    have h₁ := List.length_pos_iff.mpr hn.ne_nil
    have h₂ := List.length_pos_iff.mpr hm.ne_nil
    have hlen := congrArg List.length hbytes
    simp only [List.length_append, List.length_singleton] at hlen
    have hn' := (List.append_inj hbytes (show n.bytes.length = 1 by omega)).1
    exact hn.ne_dot (CStr.ext hn')

theorem isFile_nil {n : CStr} (h : IsFile es [n]) : (n, .file) ∈ es := by
  cases h with
  | here hn => exact hn
  | down _ h => cases h

/-- A path of two names or more has a `/`. -/
theorem not_bare_joinPath {rel : List CStr} : ¬ Bare (joinPath (n :: m :: rel)) := by
  intro h
  refine h ?_
  have hmem : '/'.toUInt8 ∈ slash.bytes := by decide
  simp [joinPath, hmem]

/-! ## What is read and stored -/

/-- No file lies below a subdirectory. -/
def Flat (es : Entries) : Prop := ∀ rel, IsFile es rel → rel.length = 1

/-- The directory that is read under the name `D ++ w`. -/
def Visited (es : Entries) (w : CStr) (es' : Entries) : Prop :=
  w = default ∧ es' = es ∨ (w, .dir es') ∈ es

/-- The paths below `D` fit their buffers, those of the files a buffer of `size` bytes. -/
structure Fits (D : CStr) (es : Entries) (size : Nat) : Prop where
  files : ∀ rel, IsFile es rel → (D ++ joinPath rel).strlen < size
  dirs : ∀ rel es', IsDir es rel es' → (D ++ joinPath rel).strlen < 512

/-- Reading the directory `D ++ w` stores the rules `stored`, in whatever way `emit` stores them. -/
def Stores (opendir : CStr → Option (List Dirent)) (D : CStr) (es : Entries) (permission : CInt)
    (fuel : Nat) (w : CStr) (stored : List User) : Prop :=
  ∀ size, Fits D es size → ∀ (σ : Type) (emit : σ → User → σ) (s : σ),
    dirContent opendir size emit permission fuel (D ++ w) s = .ok (stored.foldl emit s)

/-- The rules stored for the directory `D ++ w` with the entries `es'`. -/
structure StoredFor (D : CStr) (es : Entries) (permission : CInt) (w : CStr) (es' : Entries)
    (stored : List User) : Prop where
  permission_eq : ∀ u ∈ stored, u.permission = permission
  /-- The name after `D` has no `/`. -/
  bare : ∀ u ∈ stored, ∃ v, Bare v ∧ u.pathname = D ++ v
  files : ∀ n, (n, .file) ∈ es' → ⟨D ++ w ++ n, permission⟩ ∈ stored
  flat : Flat es → ∀ u ∈ stored, w = default ∧ ∃ n, (n, .file) ∈ es ∧ u.pathname = D ++ n

/-! ## One directory -/

namespace Visited

variable {t : FileTree}

theorem entryName (hm : Mounted opendir D es) (hv : Visited es w es') (hn : (n, t) ∈ es') :
    EntryName n := by
  rcases hv with ⟨rfl, rfl⟩ | hw
  · exact hm.names [] _ .here _ hn
  · exact hm.names [w] _ (.down hw .here) _ hn

theorem append_entryName (hm : Mounted opendir D es) (hv : Visited es w es') (hn : (n, t) ∈ es') :
    EntryName (w ++ n) := by
  have hname := hv.entryName hm hn
  rcases hv with ⟨rfl, rfl⟩ | hw
  · exact hname
  · exact (hm.names [] _ .here _ hw).append hname

theorem listed (hm : Mounted opendir D es) (hv : Visited es w es') :
    ∃ l, Lists l es' ∧ opendir (D ++ w) = some l := by
  rcases hv with ⟨rfl, rfl⟩ | hw
  · exact hm.listed [] _ .here
  · exact hm.listed [w] _ (.down hw .here)

theorem fits_file (hv : Visited es w es') (hf : Fits D es size) (hn : (n, .file) ∈ es') :
    (D ++ w ++ n).strlen < size := by
  rcases hv with ⟨rfl, rfl⟩ | hw
  · simpa [joinPath] using hf.files [n] (.here hn)
  · have := hf.files [w, n] (.down hw (.here hn))
    simp only [joinPath, CStr.strlen_append] at this ⊢
    omega

theorem fits_dir {es'' : Entries} (hv : Visited es w es') (hf : Fits D es size)
    (hn : (n, .dir es'') ∈ es') : (D ++ w ++ n).strlen < 512 := by
  rcases hv with ⟨rfl, rfl⟩ | hw
  · simpa [joinPath] using hf.dirs [n] _ (.down hn .here)
  · have := hf.dirs [w, n] _ (.down hw (.down hn .here))
    simp only [joinPath, CStr.strlen_append] at this ⊢
    omega

/-- In a flat tree only `D` itself has files. -/
theorem eq_default (hv : Visited es w es') (hflat : Flat es) (hn : (n, .file) ∈ es') :
    w = default ∧ (n, .file) ∈ es := by
  rcases hv with ⟨rfl, rfl⟩ | hw
  · exact ⟨rfl, hn⟩
  · exact absurd (hflat _ (.down hw (.here hn))) (by simp)

theorem strlen_le (hv : Visited es w es') : w.strlen ≤ (es.map fun e => e.1.strlen).sum := by
  rcases hv with ⟨rfl, rfl⟩ | hw
  · exact Nat.zero_le _
  · exact List.le_sum_of_mem (List.mem_map_of_mem (f := fun e : CStr × FileTree => e.1.strlen) hw)

end Visited

/-- The rules stored for one entry of the directory `D ++ w`. -/
structure StoredEntry (D : CStr) (es : Entries) (permission : CInt) (w : CStr) (d : Dirent)
    (stored : List User) : Prop where
  permission_eq : ∀ u ∈ stored, u.permission = permission
  bare : ∀ u ∈ stored, ∃ v, Bare v ∧ u.pathname = D ++ v
  file : d.isDir = false → ⟨D ++ w ++ d.name, permission⟩ ∈ stored
  flat : Flat es → ∀ u ∈ stored, w = default ∧ ∃ n, (n, .file) ∈ es ∧ u.pathname = D ++ n

theorem storedEntry_nil {d : Dirent} (hd : d.isDir = true) : StoredEntry D es permission w d [] :=
  ⟨by simp, by simp, by simp [hd], by simp⟩

/-- A subdirectory is read under its name right after `D ++ w`. -/
theorem dirEntry_dir {es'' : Entries} (hm : Mounted opendir D es) (hv : Visited es w es')
    (hf : Fits D es size) (hn : (n, .dir es'') ∈ es') {σ : Type} (emit : σ → User → σ)
    (getDirContent : CStr → σ → Exec σ) (s : σ) :
    dirEntry size emit permission (D ++ w) getDirContent s ⟨n, true⟩ =
      getDirContent (D ++ (w ++ n)) s := by
  have hname := hv.entryName hm hn
  have hdots : n ≠ dot ∧ n ≠ dotDot := ⟨hname.ne_dot, hname.ne_dotDot⟩
  rw [dirEntry, if_neg (by simp), if_pos hdots, CStr.store_of_lt (hv.fits_dir hf hn),
    CStr.append_assoc]
  rfl

/-- A subdirectory. `ih` is the recursion: a directory whose name is longer. -/
theorem subdir_stores {es'' : Entries} (hm : Mounted opendir D es) (hv : Visited es w es')
    (hn : (n, .dir es'') ∈ es') (hfuel : 0 < fuel)
    (ih : ∀ es₃, Visited es (w ++ n) es₃ →
      ∃ stored, Stores opendir D es permission fuel (w ++ n) stored ∧
        StoredFor D es permission (w ++ n) es₃ stored) :
    ∃ stored, Stores opendir D es permission fuel (w ++ n) stored ∧
      StoredEntry D es permission w ⟨n, true⟩ stored := by
  have hname := hv.append_entryName hm hn
  by_cases hsub : ∃ es₃, (w ++ n, FileTree.dir es₃) ∈ es
  · obtain ⟨es₃, hsub⟩ := hsub
    obtain ⟨stored, hs, hfor⟩ := ih es₃ (.inr hsub)
    refine ⟨stored, hs, hfor.permission_eq, hfor.bare, by simp, fun hflat u hu => ?_⟩
    exact absurd (congrArg CStr.bytes (hfor.flat hflat u hu).1) hname.ne_nil
  · -- There is no such directory: `opendir` fails, and nothing is stored.
    have hmissing := hm.missing (w ++ n) hname fun es₃ h => hsub ⟨es₃, h⟩
    obtain ⟨k, rfl⟩ : ∃ k, fuel = k + 1 := ⟨fuel - 1, by omega⟩
    refine ⟨[], fun size hf σ emit s => ?_, storedEntry_nil rfl⟩
    simp [dirContent, hmissing]

/-- One entry. `ih` is the recursion: a directory whose name is longer. -/
theorem dirEntry_stores (hm : Mounted opendir D es) (hv : Visited es w es')
    (hfuel : (es.map fun e => e.1.strlen).sum + 2 ≤ fuel + 1 + w.strlen)
    (ih : ∀ w es', Visited es w es' → (es.map fun e => e.1.strlen).sum + 2 ≤ fuel + w.strlen →
      ∃ stored, Stores opendir D es permission fuel w stored ∧
        StoredFor D es permission w es' stored)
    {l : List Dirent} (hl : Lists l es') {d : Dirent} (hd : d ∈ l) :
    ∃ stored, (∀ size, Fits D es size → ∀ (σ : Type) (emit : σ → User → σ) (s : σ),
        dirEntry size emit permission (D ++ w) (dirContent opendir size emit permission fuel) s d =
          .ok (stored.foldl emit s)) ∧
      StoredEntry D es permission w d stored := by
  have hmem := hl.mem_iff.mp hd
  simp only [List.mem_cons, List.mem_map, Prod.exists] at hmem
  rcases hmem with rfl | rfl | ⟨n, t, hn, rfl⟩
  · exact ⟨[], fun _ _ _ _ _ => by simp [dirEntry], storedEntry_nil rfl⟩
  · exact ⟨[], fun _ _ _ _ _ => by simp [dirEntry], storedEntry_nil rfl⟩
  · cases t with
    | file =>
      have hname := hv.append_entryName hm hn
      refine ⟨[⟨D ++ w ++ n, permission⟩], fun size hf σ emit s => ?_, ?_⟩
      · simp [dirEntry, FileTree.isDir, CStr.store_of_lt (hv.fits_file hf hn)]
      · refine ⟨by simp, ?_, by simp, ?_⟩
        · simpa using ⟨w ++ n, hname.bare, CStr.append_assoc D w n⟩
        · intro hflat
          obtain ⟨rfl, hn'⟩ := hv.eq_default hflat hn
          simpa using ⟨n, hn', rfl⟩
    | dir es'' =>
      have hlen : 0 < n.strlen := List.length_pos_iff.mpr (hv.entryName hm hn).ne_nil
      have hw := hv.strlen_le
      obtain ⟨stored, hs, hfor⟩ := subdir_stores hm hv hn (by omega) fun es₃ hv₃ =>
        ih (w ++ n) es₃ hv₃ (by rw [CStr.strlen_append]; omega)
      exact ⟨stored, fun size hf σ emit s =>
        (dirEntry_dir hm hv hf hn emit _ s).trans (hs size hf σ emit s), hfor⟩

/-- **One directory**: reading it returns, and stores rules for its files and for what is read below
it. The induction is on the fuel, which the names of subdirectories bound. -/
theorem dirContent_stores (hm : Mounted opendir D es) (hv : Visited es w es')
    (hfuel : (es.map fun e => e.1.strlen).sum + 2 ≤ fuel + w.strlen) :
    ∃ stored, Stores opendir D es permission fuel w stored ∧
      StoredFor D es permission w es' stored := by
  induction fuel generalizing w es' with
  | zero =>
    have := hv.strlen_le
    omega
  | succ fuel ih =>
    obtain ⟨l, hl, hopen⟩ := hv.listed hm
    choose! g hg using fun d (hd : d ∈ l) =>
      dirEntry_stores hm hv hfuel (fun w es' hv hf => ih hv hf) hl hd
    refine ⟨l.flatMap g, fun size hf σ emit s => ?_, ?_⟩
    · simp only [dirContent, hopen]
      exact runFrom_emit g (fun d hd s => (hg d hd).1 size hf σ emit s) s
    · refine ⟨fun u hu => ?_, fun u hu => ?_, fun n hn => ?_, fun hflat u hu => ?_⟩
      · obtain ⟨d, hd, hu⟩ := List.mem_flatMap.mp hu
        exact (hg d hd).2.permission_eq u hu
      · obtain ⟨d, hd, hu⟩ := List.mem_flatMap.mp hu
        exact (hg d hd).2.bare u hu
      · have hd : (⟨n, false⟩ : Dirent) ∈ l := by
          refine hl.mem_iff.mpr ?_
          simp only [List.mem_cons, List.mem_map]
          exact .inr (.inr ⟨(n, .file), hn, rfl⟩)
        exact List.mem_flatMap.mpr ⟨_, hd, (hg _ hd).2.file rfl⟩
      · obtain ⟨d, hd, hu⟩ := List.mem_flatMap.mp hu
        exact (hg d hd).2.flat hflat u hu

/-- **When a directory rule covers exactly the files below its directory**: `get_dir_content` returns,
in the agent and in `nluser`, and both store the rules `stored`, in this order. They are one rule for
each file below the directory and no other rule, if and only if no file lies below a subdirectory. -/
theorem getDirContent_iff (hm : Mounted opendir D es) (permission : CInt) :
    ∃ N, ∀ fuel, N ≤ fuel → ∃ stored : List User,
      (∀ size, Fits D es size → ∀ (σ : Type) (emit : σ → User → σ) (s : σ),
        dirContent opendir size emit permission fuel D s = .ok (stored.foldl emit s)) ∧
      (Fits D es MAX_PATH → ∀ map, Config.getDirContent opendir fuel map D permission =
        .ok (stored.foldl Config.hashmapSet map)) ∧
      (Fits D es KERNEL_MAX_PATH → ∀ n, Nluser.getDirContent opendir fuel n D permission =
        .ok (stored.foldl (fun n tmp => n.mysendmsg { tmp with type := .myuser }) n)) ∧
      ((∀ u, u ∈ stored ↔ u.permission = permission ∧
        ∃ rel, IsFile es rel ∧ u.pathname = D ++ joinPath rel) ↔ Flat es) := by
  refine ⟨(es.map fun e => e.1.strlen).sum + 2, fun fuel hfuel => ?_⟩
  have hv : Visited es default es := .inl ⟨rfl, rfl⟩
  obtain ⟨stored, hs, hfor⟩ : ∃ stored, Stores opendir D es permission fuel default stored ∧
      StoredFor D es permission default es stored :=
    dirContent_stores hm hv (Nat.le_add_right_of_le hfuel)
  rw [Stores, CStr.append_default] at hs
  refine ⟨stored, hs, fun hf map => hs _ hf _ _ map, fun hf n => hs _ hf _ _ n,
    fun h rel hrel => ?_, fun hflat u => ⟨fun hu => ?_, ?_⟩⟩
  · -- The name of a file below a subdirectory has a `/` after `D`.
    obtain ⟨v, hv, hpath⟩ := hfor.bare ⟨D ++ joinPath rel, permission⟩
      ((h _).mpr ⟨rfl, rel, hrel, rfl⟩)
    obtain rfl : joinPath rel = v := CStr.append_right_inj.mp hpath
    match rel, hrel with
    | [_], _ => rfl
    | n :: m :: rel, _ => exact absurd hv not_bare_joinPath
  · obtain ⟨-, n, hn, hpath⟩ := hfor.flat hflat u hu
    exact ⟨hfor.permission_eq u hu, [n], .here hn, hpath⟩
  · rintro ⟨hperm, rel, hrel, hpath⟩
    obtain ⟨n, rfl⟩ := List.length_eq_one_iff.mp (hflat rel hrel)
    have hmem := hfor.files n (isFile_nil hrel)
    rw [CStr.append_default] at hmem
    obtain ⟨pathname, p⟩ := u
    cases hperm
    cases hpath
    exact hmem

/-! ## Two directories -/

/-- `"/d/"` -/
def dirD : CStr := .ofChars ['/', 'd', '/']

/-- A directory with two files and an empty subdirectory. -/
def flatDir (path : CStr) : Option (List Dirent) :=
  if path = dirD then
    some [⟨dot, true⟩, ⟨dotDot, true⟩, ⟨.ofChars ['f'], false⟩, ⟨.ofChars ['e'], true⟩,
      ⟨.ofChars ['g'], false⟩]
  else if path = dirD ++ .ofChars ['e'] ∨ path = dirD ++ .ofChars ['e', '/'] then
    some [⟨dot, true⟩, ⟨dotDot, true⟩]
  else none

/-- The entries of `flatDir`. -/
def flatTree : Entries := [(.ofChars ['f'], .file), (.ofChars ['e'], .dir []), (.ofChars ['g'], .file)]

/-- A directory with a subdirectory `b` that has a file `f`. -/
def nestedDir (path : CStr) : Option (List Dirent) :=
  if path = dirD then some [⟨dot, true⟩, ⟨dotDot, true⟩, ⟨.ofChars ['b'], true⟩]
  else if path = dirD ++ .ofChars ['b'] ∨ path = dirD ++ .ofChars ['b', '/'] then
    some [⟨dot, true⟩, ⟨dotDot, true⟩, ⟨.ofChars ['f'], false⟩]
  else none

/-- The entries of `nestedDir`. -/
def nestedTree : Entries := [(.ofChars ['b'], .dir [(.ofChars ['f'], .file)])]

theorem isFile_flatTree {rel : List CStr} :
    IsFile flatTree rel ↔ rel = [.ofChars ['f']] ∨ rel = [.ofChars ['g']] := by
  constructor
  · intro h
    cases h with
    | here hn => simpa [flatTree] using hn
    | down hn h =>
      obtain ⟨-, rfl⟩ : _ = CStr.ofChars ['e'] ∧ _ = [] := by simpa [flatTree] using hn
      cases h with
      | here hn => cases hn
      | down hn _ => cases hn
  · rintro (rfl | rfl)
    · exact .here (by simp [flatTree])
    · exact .here (by simp [flatTree])

theorem isDir_flatTree {rel : List CStr} (h : IsDir flatTree rel es') :
    rel = [] ∧ es' = flatTree ∨ rel = [.ofChars ['e']] ∧ es' = [] := by
  cases h with
  | here => exact .inl ⟨rfl, rfl⟩
  | down hn h =>
    obtain ⟨rfl, rfl⟩ : _ = CStr.ofChars ['e'] ∧ _ = [] := by simpa [flatTree] using hn
    cases h with
    | here => exact .inr ⟨rfl, rfl⟩
    | down hn _ => cases hn

theorem isDir_nestedTree {rel : List CStr} (h : IsDir nestedTree rel es') :
    rel = [] ∧ es' = nestedTree ∨ rel = [.ofChars ['b']] ∧ es' = [(.ofChars ['f'], .file)] := by
  cases h with
  | here => exact .inl ⟨rfl, rfl⟩
  | down hn h =>
    obtain ⟨rfl, rfl⟩ : _ = CStr.ofChars ['b'] ∧ _ = [(CStr.ofChars ['f'], FileTree.file)] := by
      simpa [nestedTree] using hn
    cases h with
    | here => exact .inr ⟨rfl, rfl⟩
    | down hn _ => simp at hn

theorem dirD_append_ne (hn : EntryName n) : dirD ++ n ≠ dirD := by
  intro h
  have hnil : n = default := CStr.append_right_inj.mp (h.trans (CStr.append_default dirD).symm)
  exact hn.ne_nil (congrArg CStr.bytes hnil)

theorem mounted_flatDir : Mounted flatDir dirD flatTree where
  ends := by decide
  names rel es' h e he := by
    rcases isDir_flatTree h with ⟨rfl, rfl⟩ | ⟨rfl, rfl⟩
    · have he : e.1 = .ofChars ['f'] ∨ e.1 = .ofChars ['e'] ∨ e.1 = .ofChars ['g'] := by
        simp only [flatTree, List.mem_cons, List.not_mem_nil, or_false] at he
        exact he.imp (congrArg Prod.fst) (.imp (congrArg Prod.fst) (congrArg Prod.fst))
      rcases he with he | he | he <;> rw [he] <;> exact ⟨by decide, by decide, by decide, by decide⟩
    · cases he
  listed rel es' h := by
    rcases isDir_flatTree h with ⟨rfl, rfl⟩ | ⟨rfl, rfl⟩
    · exact ⟨_, List.Perm.refl _, by decide⟩
    · exact ⟨_, List.Perm.refl _, by decide⟩
  listed_slash rel es' hne h := by
    rcases isDir_flatTree h with ⟨rfl, rfl⟩ | ⟨rfl, rfl⟩
    · exact absurd rfl hne
    · exact ⟨_, List.Perm.refl _, by decide⟩
  missing n hn hnone := by
    have he : n ≠ .ofChars ['e'] := by
      rintro rfl
      exact hnone [] (by simp [flatTree])
    have hslash : n ≠ .ofChars ['e', '/'] := by
      rintro rfl
      exact absurd hn.bare (by decide)
    simp [flatDir, dirD_append_ne hn, CStr.append_right_inj, he, hslash]

theorem fits_flatTree : Fits dirD flatTree KERNEL_MAX_PATH where
  files rel h := by
    rcases isFile_flatTree.mp h with rfl | rfl <;> decide
  dirs rel es' h := by
    rcases isDir_flatTree h with ⟨rfl, -⟩ | ⟨rfl, -⟩ <;> decide

theorem mounted_nestedDir : Mounted nestedDir dirD nestedTree where
  ends := by decide
  names rel es' h e he := by
    rcases isDir_nestedTree h with ⟨rfl, rfl⟩ | ⟨rfl, rfl⟩ <;> obtain rfl := List.mem_singleton.mp he
    · exact ⟨by decide, by decide, by decide, by decide⟩
    · exact ⟨by decide, by decide, by decide, by decide⟩
  listed rel es' h := by
    rcases isDir_nestedTree h with ⟨rfl, rfl⟩ | ⟨rfl, rfl⟩
    · exact ⟨_, List.Perm.refl _, by decide⟩
    · exact ⟨_, List.Perm.refl _, by decide⟩
  listed_slash rel es' hne h := by
    rcases isDir_nestedTree h with ⟨rfl, rfl⟩ | ⟨rfl, rfl⟩
    · exact absurd rfl hne
    · exact ⟨_, List.Perm.refl _, by decide⟩
  missing n hn hnone := by
    have hb : n ≠ .ofChars ['b'] := by
      rintro rfl
      exact hnone [(.ofChars ['f'], .file)] (by simp [nestedTree])
    have hslash : n ≠ .ofChars ['b', '/'] := by
      rintro rfl
      exact absurd hn.bare (by decide)
    simp [nestedDir, dirD_append_ne hn, CStr.append_right_inj, hb, hslash]

/-- The rules for two files, next to an empty subdirectory. -/
theorem getDirContent_iff_flat :
    ∃ N, ∀ fuel, N ≤ fuel → ∃ stored : List User,
      (∀ map, Config.getDirContent flatDir fuel map dirD O_READ =
        .ok (stored.foldl Config.hashmapSet map)) ∧
      (∀ n, Nluser.getDirContent flatDir fuel n dirD O_READ =
        .ok (stored.foldl (fun n tmp => n.mysendmsg { tmp with type := .myuser }) n)) ∧
      ∀ u, u ∈ stored ↔ u.permission = O_READ ∧
        (u.pathname = .ofChars ['/', 'd', '/', 'f'] ∨ u.pathname = .ofChars ['/', 'd', '/', 'g']) := by
  obtain ⟨N, hN⟩ := getDirContent_iff mounted_flatDir O_READ
  refine ⟨N, fun fuel hfuel => ?_⟩
  obtain ⟨stored, -, hagent, hnluser, hiff⟩ := hN fuel hfuel
  have hfits : Fits dirD flatTree MAX_PATH :=
    ⟨fun rel h => (fits_flatTree.files rel h).trans (by decide), fits_flatTree.dirs⟩
  have hflat : Flat flatTree := fun rel h => by
    rcases isFile_flatTree.mp h with rfl | rfl <;> rfl
  refine ⟨stored, hagent hfits, hnluser fits_flatTree, fun u => ?_⟩
  rw [hiff.mpr hflat u]
  simp only [isFile_flatTree, or_and_right, exists_or, exists_eq_left]
  exact Iff.rfl

/-- A file `/d/b/f`: the rule is stored for `/d/bf`. -/
theorem getDirContent_fails :
    Mounted nestedDir dirD nestedTree ∧ IsFile nestedTree [.ofChars ['b'], .ofChars ['f']] ∧
    ∃ map, Config.getDirContent nestedDir 4 ∅ dirD O_FORBIDDEN = .ok map ∧
      map.lookup (dirD ++ joinPath [.ofChars ['b'], .ofChars ['f']]) = none ∧
      map.lookup (.ofChars ['/', 'd', '/', 'b', 'f']) = some O_FORBIDDEN := by
  refine ⟨mounted_nestedDir, .down (List.mem_singleton.mpr rfl) (.here (List.mem_singleton.mpr rfl)), ?_⟩
  obtain ⟨map, hmap, h⟩ := Exec.of_returned
    (x := Config.getDirContent nestedDir 4 ∅ dirD O_FORBIDDEN)
    (p := fun map => map.lookup (dirD ++ joinPath [.ofChars ['b'], .ofChars ['f']]) = none ∧
      map.lookup (.ofChars ['/', 'd', '/', 'b', 'f']) = some O_FORBIDDEN) (by decide)
  exact ⟨map, hmap, of_decide_eq_true h⟩

end Cnpv
