import Mathlib.Data.List.Infix
import KubernetesUpRunning.LexicalPath

/-! # The file browser

    `kuard/pkg/app/app.go` registers, under four mounts, a handler that shows
    the files of the container.  It takes the file it serves from the path of
    the request, and the links of a listing from a second reading of the same
    path, with the name of the mount taken off where the path starts with it.
    Here the two are compared, for every path. -/

namespace FileBrowser

open LexicalPath

/-- Strings and paths. -/
abbrev Str := List Char

/-- The paths of `path` and, on Unix, of `filepath`. -/
def unix : Marks Char := { slash := '/', dot := '.' }

/-- `os.FileInfo`, as far as it is looked at. -/
structure FileInfo where
  isDir : Bool

/-- `os.DirEntry`, as far as it is looked at. -/
structure DirEntry where
  name : Str
  isDir : Bool

/-- The container's files: `os.Stat` and `os.ReadDir`. -/
structure FileSystem where
  stat : Str → Option FileInfo
  readDir : Str → Option (List DirEntry)

/-- One line of a listing: `<a href="...">...</a>`. -/
structure Link where
  href : Str
  display : Str
  deriving DecidableEq, Repr

/-- What a request is answered. -/
inductive Response where
  | notFound
  | serveFile (p : Str)
  | error (message : String) (code : Nat)
  | listing (contentType : String) (indexOf : Str) (links : List Link)

/-! ## The handler -/

/-- `strings.TrimPrefix`. -/
def trimPrefix (s start : Str) : Str :=
  if start <+: s then s.drop start.length else s

/-- `basePath`. -/
def basePath (pfx : Str) : Str :=
  let basePath := join unix [pfx, "fs".toList]
  if "/".toList <+: basePath then basePath else '/' :: basePath

/-- `trimmedBase`. -/
def trimmedBase (pfx : Str) : Str := trimPrefix (basePath pfx) "/".toList

/-- `rel`: the stripped path, without the mount where it starts with it. -/
def relPath (pfx urlPath : Str) : Str :=
  let rel := trimPrefix urlPath "/".toList
  if trimmedBase pfx <+: rel then
    trimPrefix (trimPrefix rel (trimmedBase pfx)) "/".toList
  else rel

/-- `href`. -/
def href (pfx urlPath : Str) (e : DirEntry) : Str :=
  let rel := relPath pfx urlPath
  let href :=
    if rel = [] then join unix [basePath pfx, e.name]
    else join unix [basePath pfx, rel, e.name]
  if e.isDir then href ++ "/".toList else href

/-- `display`. -/
def display (e : DirEntry) : Str :=
  if e.isDir then e.name ++ "/".toList else e.name

/-- `p`: the file that is served. -/
def filePath (urlPath : Str) : Str := clean unix ('/' :: urlPath)

/-- The handler of the mount `pfx`, on the path that `StripPrefix` leaves. -/
def handler (fs : FileSystem) (pfx urlPath : Str) : Response :=
  let p := filePath urlPath
  match fs.stat p with
  | none => .notFound
  | some info =>
      if ¬ info.isDir then .serveFile p
      else
        match fs.readDir p with
        | none => .error "Failed to read directory" 500
        | some entries =>
            .listing "text/html; charset=utf-8"
              (join unix [basePath pfx, relPath pfx urlPath])
              (entries.map fun e =>
                { href := href pfx urlPath e, display := display e })

/-! ## The routes -/

/-- The mounts that the routes are registered under. -/
def mounts : List Str :=
  ["".toList, "/a".toList, "/b".toList, "/c".toList]

/-- The route `pfx+"/fs/*filepath"`, and what `http.StripPrefix` leaves of a
    path that it matches. -/
def stripped (pfx path : Str) : Option Str :=
  if pfx ++ "/fs/".toList <+: path then
    some (trimPrefix path (pfx ++ "/fs".toList))
  else none

/-- The handler that gets a path: the mount, and what is left of the path. -/
def route (path : Str) : Option (Str × Str) :=
  mounts.findSome? fun pfx => (stripped pfx path).map fun u => (pfx, u)

/-- The answer to a request, where the browser gives one. -/
def serve (fs : FileSystem) (path : Str) : Option Response :=
  (route path).map fun r => handler fs r.1 r.2

/-- The handler and the file that a request is for. -/
def requested (path : Str) : Option (Str × Str) :=
  (route path).map fun r => (r.1, filePath r.2)

/-! ## The links -/

/-- Letters and digits, those beyond ASCII included. -/
def letterOrDigit (a : Char) : Bool := a.isAlphanum || 128 ≤ a.toNat

/-- A component that uses only letters and digits. -/
def Word (c : Str) : Prop := c ≠ [] ∧ ∀ a ∈ c, letterOrDigit a

/-- What may stand between two slashes of a request: a word, nothing at all
    (a repeated or trailing slash) or a dot segment. -/
def Segment (c : Str) : Prop :=
  c = [] ∨ c = ".".toList ∨ c = "..".toList ∨ Word c

/-- The links of an answer. -/
def links : Option Response → List Link
  | some (.listing _ _ links) => links
  | _ => []

/-- The file of the entry `name` of the directory `d`. -/
def entryPath (d name : Str) : Str :=
  if d = "/".toList then d ++ name else d ++ '/' :: name

/-- The link that the listing of `pfx/fs/x` shows for its entry number `i` is a
    request for that entry, to the same handler. -/
def LinkLeads (fs : FileSystem) (pfx x : Str) (i : Nat) (e : DirEntry) :
    Prop :=
  ∃ l, (links (serve fs (pfx ++ "/fs/".toList ++ x)))[i]? = some l ∧
    requested l.href
      = some (pfx, entryPath (filePath ('/' :: x)) e.name)

/-- The request never goes above the root, and does not start with the text of
    its own mount.  Under the empty mount it may, if its first component is
    longer than `fs` and is taken away again by a later `..`. -/
def Sound (pfx x : Str) : Prop :=
  climbs unix 0 (comps unix x) = 0 ∧
    (trimmedBase pfx <+: x →
      pfx = [] ∧ (comps unix x).head? ≠ some "fs".toList ∧
        climbs unix 0 (comps unix x).tail ≠ 0)

instance (pfx x : Str) : Decidable (Sound pfx x) :=
  inferInstanceAs (Decidable (_ ∧ (_ → _)))

/-! ## Words -/

/-- A word, letter by letter. -/
theorem Word.of_all {c : Str} (hne : c ≠ []) (h : c.all letterOrDigit) :
    Word c := ⟨hne, List.all_eq_true.1 h⟩

/-- Neither a slash nor a dot is a letter or a digit. -/
theorem Word.plain {c : Str} (h : Word c) : Name unix c ∧ '/' ∉ c := by
  have hdot : '.' ∉ c := fun hc => absurd (h.2 '.' hc) (by decide)
  refine ⟨⟨h.1, ?_, ?_⟩, fun hc => absurd (h.2 '/' hc) (by decide)⟩
  · rintro rfl
    exact hdot (by simp [Marks.here, unix])
  · rintro rfl
    exact hdot (by simp [Marks.up, unix])

/-- What follows in a word is a word, or nothing. -/
theorem Word.of_append {c d : Str} (h : Word (c ++ d)) (hd : d ≠ []) :
    Word d := ⟨hd, fun a ha => h.2 a (by simp [ha])⟩

/-! ## The mounts -/

/-- A mount as components: those of the mount itself, then `fs`. -/
structure Rooted (pfx : Str) (above : List Str) : Prop where
  words : ∀ c ∈ above ++ ["fs".toList], Word c
  pathEq : pfx ++ "/fs".toList = '/' :: unsplit unix (above ++ ["fs".toList])
  baseEq : basePath pfx = pfx ++ "/fs".toList
  trimEq : trimmedBase pfx = unsplit unix (above ++ ["fs".toList])
  emptyIff : pfx = [] ↔ above = []

/-- Every mount has its components. -/
theorem rooted_of_mount {pfx : Str} (h : pfx ∈ mounts) :
    ∃ above, Rooted pfx above := by
  have hcases : pfx = "".toList ∨ pfx = "/a".toList ∨ pfx = "/b".toList ∨
      pfx = "/c".toList := by simpa [mounts] using h
  have hw : ∀ cs : List Str,
      (∀ c ∈ cs, c ≠ [] ∧ c.all letterOrDigit = true) → ∀ c ∈ cs, Word c :=
    fun _ h c hc => .of_all (h c hc).1 (h c hc).2
  rcases hcases with rfl | rfl | rfl | rfl
  · exact ⟨[], hw _ (by decide), by decide, by decide, by decide, by decide⟩
  · exact ⟨["a".toList], hw _ (by decide), by decide, by decide, by decide,
      by decide⟩
  · exact ⟨["b".toList], hw _ (by decide), by decide, by decide, by decide,
      by decide⟩
  · exact ⟨["c".toList], hw _ (by decide), by decide, by decide, by decide,
      by decide⟩

/-- A route takes its mount and `/fs` off. -/
theorem stripped_eq_some {pfx p u : Str} :
    stripped pfx p = some u ↔
      ∃ y, p = pfx ++ "/fs".toList ++ '/' :: y ∧ u = '/' :: y := by
  have hfs : pfx ++ "/fs/".toList = pfx ++ "/fs".toList ++ ['/'] := by
    simp
  constructor
  · intro h
    unfold stripped at h
    split at h
    · rename_i hp
      obtain ⟨y, rfl⟩ := hp
      refine ⟨y, by rw [hfs]; simp, ?_⟩
      have hu := Option.some.inj h
      rw [← hu, hfs, List.append_assoc, trimPrefix,
        if_pos (List.prefix_append _ _), List.drop_left]
      rfl
    · cases h
  · rintro ⟨y, rfl, rfl⟩
    have hp : pfx ++ "/fs/".toList <+: pfx ++ "/fs".toList ++ '/' :: y :=
      ⟨y, by rw [hfs]; simp⟩
    rw [stripped, if_pos hp, trimPrefix, if_pos (List.prefix_append _ _),
      List.drop_left]

/-- Each path below a mount has one route. -/
theorem route_mount {pfx : Str} (h : pfx ∈ mounts) (y : Str) :
    route (pfx ++ "/fs".toList ++ '/' :: y) = some (pfx, '/' :: y) := by
  have hcases : pfx = "".toList ∨ pfx = "/a".toList ∨ pfx = "/b".toList ∨
      pfx = "/c".toList := by simpa [mounts] using h
  rcases hcases with rfl | rfl | rfl | rfl <;> rfl

/-- A route is that of a mount. -/
theorem of_route {p : Str} {r : Str × Str} (h : route p = some r) :
    r.1 ∈ mounts ∧ ∃ y, p = r.1 ++ "/fs".toList ++ '/' :: y ∧
      r.2 = '/' :: y := by
  obtain ⟨pfx, hpfx, hr⟩ := List.exists_of_findSome?_eq_some h
  obtain ⟨u, hu, rfl⟩ := Option.map_eq_some_iff.1 hr
  exact ⟨hpfx, stripped_eq_some.1 hu⟩

/-! ## Paths as components -/

section Components

variable {pfx : Str} {above : List Str}

/-- The mount's own components can be put together and split again. -/
theorem Rooted.plain (h : Rooted pfx above) :
    ∀ c ∈ above ++ ["fs".toList], Name unix c ∧ '/' ∉ c :=
  fun c hc => (h.words c hc).plain

/-- The components of the mount. -/
theorem Rooted.comps_eq (h : Rooted pfx above) :
    comps unix (unsplit unix (above ++ ["fs".toList]))
      = above ++ ["fs".toList] :=
  comps_unsplit unix (fun c hc => (h.plain c hc).2) (by simp)

/-- What is left on the stack can be put together and split again. -/
theorem walk_plain (cs : List Str) (hcs : ∀ c ∈ cs, '/' ∉ c) {s : List Str}
    (hs : ∀ c ∈ s, Name unix c ∧ '/' ∉ c) :
    ∀ c ∈ walk unix true s cs, Name unix c ∧ '/' ∉ c := by
  intro c hc
  refine ⟨walk_rooted_names unix cs (fun c hc => (hs c hc).1) c hc, ?_⟩
  rcases mem_of_mem_walk unix hc with h | h
  · exact (hs c h).2
  · exact hcs c h

/-- The file that a path below a mount names. -/
theorem filePath_eq (x : Str) :
    filePath ('/' :: x)
      = '/' :: unsplit unix (walk unix true [] (comps unix x)).reverse := by
  have hclean := clean_slash unix ('/' :: x)
  have hcomps : comps unix ('/' :: x) = [] :: comps unix x :=
    comps_slash unix x
  rw [hcomps, walk_cons, push_empty] at hclean
  exact hclean

/-- An entry's file has its directory's components and its name. -/
theorem entryPath_eq (x : Str) (name : Str) :
    entryPath (filePath ('/' :: x)) name
      = '/' :: unsplit unix
          ((walk unix true [] (comps unix x)).reverse ++ [name]) := by
  have hplain := walk_plain (comps unix x)
    (fun c hc => slash_notMem_of_mem_comps unix hc) (s := []) (by simp)
  rw [filePath_eq]
  generalize walk unix true [] (comps unix x) = d at hplain
  by_cases hd : d = []
  · subst hd
    simp [entryPath, unsplit]
  · have hne : unsplit unix d.reverse ≠ [] := by
      intro h
      have hnil : d.reverse = [] := unsplit_inj unix
        (fun c hc => hplain c (by simpa using hc)) (by simp) h
      exact hd (by simpa using hnil)
    have hroot : '/' :: unsplit unix d.reverse ≠ "/".toList := by
      simpa using hne
    rw [entryPath, if_neg hroot,
      unsplit_append unix (by simpa using hd) (by simp)]
    simp [unsplit, unix]

/-- Cleaning below a mount: the components walk on from the mount's own. -/
theorem Rooted.clean_below (h : Rooted pfx above) (p : Str) :
    clean unix
        ('/' :: (unsplit unix (above ++ ["fs".toList]) ++ '/' :: p))
      = '/' :: unsplit unix (walk unix true
          (above ++ ["fs".toList]).reverse (comps unix p)).reverse := by
  have hbase : walk unix true [] (above ++ ["fs".toList])
      = (above ++ ["fs".toList]).reverse := by
    simpa using walk_names unix (fun c hc => (h.plain c hc).1) true []
  have hsplit : comps unix
      (unsplit unix (above ++ ["fs".toList]) ++ '/' :: p)
      = comps unix (unsplit unix (above ++ ["fs".toList])) ++ comps unix p :=
    comps_append_slash unix _ p
  have hclean := clean_slash unix
    (unsplit unix (above ++ ["fs".toList]) ++ '/' :: p)
  rw [hsplit, h.comps_eq, walk_append, hbase] at hclean
  exact hclean

/-- The link of an entry: the mount's components, those of `rel` and the name,
    all walked together. -/
theorem href_eq (h : Rooted pfx above) (u : Str) {e : DirEntry}
    (he : Word e.name) :
    href pfx u e
      = '/' :: unsplit unix (walk unix true (above ++ ["fs".toList]).reverse
          (comps unix (relPath pfx u) ++ [e.name])).reverse
        ++ (if e.isDir then "/".toList else []) := by
  have hname : comps unix e.name = [e.name] :=
    comps_of_notMem unix he.plain.2
  have hbase : basePath pfx
      = '/' :: unsplit unix (above ++ ["fs".toList]) := by
    rw [h.baseEq, h.pathEq]
  have hjoin : (if relPath pfx u = [] then join unix [basePath pfx, e.name]
      else join unix [basePath pfx, relPath pfx u, e.name])
      = '/' :: unsplit unix (walk unix true (above ++ ["fs".toList]).reverse
          (comps unix (relPath pfx u) ++ [e.name])).reverse := by
    rw [hbase]
    by_cases hrel : relPath pfx u = []
    · -- without a `rel` the walk has one empty component less
      have hj : join unix ['/' :: unsplit unix (above ++ ["fs".toList]),
          e.name] = clean unix ('/' ::
            (unsplit unix (above ++ ["fs".toList]) ++ '/' :: e.name)) := by
        simpa [unsplit, unix] using join_slash unix
          (unsplit unix (above ++ ["fs".toList])) [e.name]
      rw [if_pos hrel, hj, h.clean_below, hname, hrel, comps_nil]
      simp only [List.singleton_append, walk_cons, push_empty]
    · have hj : join unix ['/' :: unsplit unix (above ++ ["fs".toList]),
          relPath pfx u, e.name] = clean unix ('/' ::
            (unsplit unix (above ++ ["fs".toList]) ++ '/' ::
              (relPath pfx u ++ '/' :: e.name))) := by
        simpa [unsplit, unix] using join_slash unix
          (unsplit unix (above ++ ["fs".toList])) [relPath pfx u, e.name]
      have hcomps : comps unix (relPath pfx u ++ '/' :: e.name)
          = comps unix (relPath pfx u) ++ comps unix e.name :=
        comps_append_slash unix _ _
      rw [if_neg hrel, hj, h.clean_below, hcomps, hname]
  simp only [href]
  rw [hjoin]
  cases e.isDir <;> simp

/-- What a walk makes of the mount's own components. -/
theorem Rooted.walk_base (h : Rooted pfx above) (cs : List Str) :
    walk unix true (above ++ ["fs".toList]).reverse cs
      = walk unix true [] cs
        ++ (above ++ ["fs".toList]).reverse.drop (climbs unix 0 cs) :=
  walk_eq unix (fun c hc => (h.plain c (List.mem_reverse.1 hc)).1) cs

/-- The slash after a directory adds at most an empty component. -/
theorem comps_trailing (dir : Bool) :
    ∃ S : List Str, (S = [] ∨ S = [[]]) ∧ ∀ cs : List Str, cs ≠ [] →
      (∀ c ∈ cs, '/' ∉ c) →
        comps unix (unsplit unix cs ++ (if dir then "/".toList else []))
          = cs ++ S := by
  cases dir with
  | false =>
      refine ⟨[], .inl rfl, fun cs hne hcs => ?_⟩
      simpa using comps_unsplit unix hcs hne
  | true =>
      refine ⟨[[]], .inr rfl, fun cs hne hcs => ?_⟩
      have := comps_append_slash unix (unsplit unix cs) []
      rw [comps_unsplit unix hcs hne, comps_nil] at this
      exact this

/-- What the handler of a mount resolves a clean path below it to. -/
theorem requested_below (h : Rooted pfx above) (hpfx : pfx ∈ mounts)
    {D : List Str} (hD : ∀ c ∈ D, Name unix c ∧ '/' ∉ c) (hne : D ≠ [])
    (dir : Bool) :
    requested ('/' :: unsplit unix (above ++ ["fs".toList] ++ D)
        ++ (if dir then "/".toList else []))
      = some (pfx, '/' :: unsplit unix D) := by
  obtain ⟨S, hS, hcomps⟩ := comps_trailing dir
  have hsplit : '/' :: unsplit unix (above ++ ["fs".toList] ++ D)
        ++ (if dir then "/".toList else [])
      = pfx ++ "/fs".toList ++ '/' ::
        (unsplit unix D ++ if dir then "/".toList else []) := by
    rw [h.pathEq, unsplit_append unix (by simp) hne]
    simp [unix]
  have hwalk : walk unix true [] (D ++ S) = D.reverse := by
    rw [walk_append, walk_names unix (fun c hc => (hD c hc).1),
      List.append_nil]
    rcases hS with rfl | rfl
    · rfl
    · exact push_empty unix true _
  rw [requested, hsplit, route_mount hpfx, Option.map_some, filePath_eq,
    hcomps D hne (fun c hc => (hD c hc).2), hwalk, List.reverse_reverse]

/-- Which links are requests for an entry below the same mount. -/
theorem requested_iff (h : Rooted pfx above) (hpfx : pfx ∈ mounts)
    {H D : List Str} (hH : ∀ c ∈ H, Name unix c ∧ '/' ∉ c)
    (hD : ∀ c ∈ D, Name unix c ∧ '/' ∉ c) (hne : H ≠ []) (hDne : D ≠ [])
    (dir : Bool) :
    requested ('/' :: unsplit unix H ++ (if dir then "/".toList else []))
        = some (pfx, '/' :: unsplit unix D) ↔
      H = above ++ ["fs".toList] ++ D := by
  refine ⟨fun hreq => ?_, fun hEq => hEq ▸ requested_below h hpfx hD hDne dir⟩
  obtain ⟨S, hS, hcomps⟩ := comps_trailing dir
  obtain ⟨r, hr, hfile⟩ := Option.map_eq_some_iff.1 hreq
  obtain ⟨-, y, hp, hu⟩ := of_route hr
  have hr1 : r.1 = pfx := congrArg Prod.fst hfile
  have hy : filePath ('/' :: y) = '/' :: unsplit unix D := by
    rw [← hu]
    exact congrArg Prod.snd hfile
  rw [hr1, h.pathEq] at hp
  -- the same text as components: those of the link and those of its route
  have hsplit : H ++ S = above ++ ["fs".toList] ++ comps unix y := by
    have hroute : comps unix
        (unsplit unix (above ++ ["fs".toList]) ++ '/' :: y)
        = comps unix (unsplit unix (above ++ ["fs".toList])) ++ comps unix y :=
      comps_append_slash unix _ y
    rw [h.comps_eq] at hroute
    rw [← hcomps H hne (fun c hc => (hH c hc).2), ← hroute]
    exact congrArg (comps unix) (List.cons.inj hp).2
  have hwy : walk unix true [] (comps unix y) = D.reverse := by
    rw [filePath_eq] at hy
    have hplain := walk_plain (comps unix y)
      (fun c hc => slash_notMem_of_mem_comps unix hc) (s := []) (by simp)
    have hinj := unsplit_inj unix
      (fun c hc => hplain c (List.mem_reverse.1 hc)) hD (List.cons.inj hy).2
    rw [← hinj, List.reverse_reverse]
  have hup : unix.up ∉ comps unix y := by
    intro hmem
    have hmemH : unix.up ∈ H ++ S := by
      rw [hsplit]
      exact List.mem_append_right _ hmem
    rcases List.mem_append.1 hmemH with hm | hm
    · exact (hH _ hm).1.2.2 rfl
    · rcases hS with rfl | rfl
      · cases hm
      · exact absurd hm (by decide)
  have hwalkS : ∀ s, walk unix true s S = s := by
    intro s
    rcases hS with rfl | rfl
    · rfl
    · exact push_empty unix true s
  have hboth := congrArg (walk unix true []) hsplit
  rw [walk_append, hwalkS, walk_append,
    walk_names unix (fun c hc => (hH c hc).1),
    walk_names unix (fun c hc => (h.plain c hc).1), List.append_nil,
    List.append_nil, h.walk_base, climbs_eq_zero unix hup, hwy,
    List.drop_zero, ← List.reverse_append] at hboth
  exact List.reverse_inj.1 hboth

/-! ## The second reading of the path -/

/-- One slash in front changes nothing for a walk. -/
theorem walk_trim (s : List Str) (y : Str) :
    walk unix true s (comps unix (trimPrefix y "/".toList))
      = walk unix true s (comps unix y) := by
  unfold trimPrefix
  split
  · rename_i hy
    obtain ⟨z, rfl⟩ := hy
    have hz : comps unix ('/' :: z) = [] :: comps unix z := comps_slash unix z
    rw [List.drop_left]
    change _ = walk unix true s (comps unix ('/' :: z))
    rw [hz, walk_cons, push_empty]
  · rfl

/-- The components of a path that starts with the text of the mount. -/
theorem Rooted.comps_trimmed (h : Rooted pfx above) {y r : Str}
    {cs : List Str} (hy : comps unix y = r :: cs) :
    comps unix (trimmedBase pfx ++ y)
      = above ++ ("fs".toList ++ r) :: cs := by
  have hfs : comps unix ("fs".toList ++ y) = ("fs".toList ++ r) :: cs := by
    rw [comps_append_of_notMem unix (by decide), hy, List.modifyHead_cons]
  rw [h.trimEq]
  by_cases ha : above = []
  · subst ha
    exact hfs
  · have hplain : ∀ c ∈ above, '/' ∉ c :=
      fun c hc => (h.plain c (by simp [hc])).2
    have hsplit : comps unix (unsplit unix above ++ '/' :: ("fs".toList ++ y))
        = comps unix (unsplit unix above) ++ comps unix ("fs".toList ++ y) :=
      comps_append_slash unix _ _
    rw [comps_unsplit unix hplain ha, hfs] at hsplit
    rw [unsplit_append unix ha (by simp), ← hsplit]
    simp [unsplit, unix]

/-- Only what is climbed is missing from the stack below. -/
theorem drop_eq_self_iff {s : List Str} (hs : s ≠ []) (k : Nat) :
    s.drop k = s ↔ k = 0 := by
  constructor
  · intro h
    have hlen := congrArg List.length h
    have hpos := List.length_pos_iff.2 hs
    rw [List.length_drop] at hlen
    omega
  · rintro rfl
    rfl

/-- What is served of a path whose first components are the mount's own, but for
    the last of them. -/
theorem Rooted.walk_served (h : Rooted pfx above) {w : Str} (hw : Word w)
    (cs : List Str) :
    walk unix true [] (above ++ w :: cs)
      = walk unix true [] cs
        ++ (w :: above.reverse).drop (climbs unix 0 cs) := by
  have habove : ∀ c ∈ above, Name unix c :=
    fun c hc => (h.plain c (by simp [hc])).1
  rw [walk_append, walk_names unix habove, List.append_nil, walk_cons,
    push_name unix hw.plain.1]
  refine walk_eq unix (fun c hc => ?_) cs
  rcases List.mem_cons.1 hc with rfl | hc
  · exact hw.plain.1
  · exact habove c (List.mem_reverse.1 hc)

/-- A path that starts with the components of its mount: they are taken for the
    mount, and the links leave them out. -/
theorem Rooted.trimmed_whole (h : Rooted pfx above) (cs : List Str) :
    walk unix true (above ++ ["fs".toList]).reverse ([] :: cs)
      ≠ walk unix true [] (above ++ "fs".toList :: cs)
        ++ (above ++ ["fs".toList]).reverse := by
  have hfs : Word "fs".toList := .of_all (by decide) (by decide)
  rw [h.walk_served hfs, walk_cons, push_empty, h.walk_base,
    List.append_assoc, ne_eq, List.append_right_inj]
  simp only [List.reverse_append, List.reverse_singleton,
    List.singleton_append]
  intro heq
  have hlen := congrArg List.length heq
  simp only [List.length_append, List.length_cons] at hlen
  omega

/-- A path with a longer last component: the links leave its first letters out,
    which does no harm when the component is taken away again and it was the
    first one. -/
theorem Rooted.trimmed_part (h : Rooted pfx above) {r : Str}
    (hr : Word ("fs".toList ++ r)) (hr0 : r ≠ []) (cs : List Str) :
    walk unix true (above ++ ["fs".toList]).reverse (r :: cs)
        = walk unix true [] (above ++ ("fs".toList ++ r) :: cs)
          ++ (above ++ ["fs".toList]).reverse ↔
      above = [] ∧ climbs unix 0 cs = 1 := by
  have hrw : Word r := hr.of_append hr0
  have hrel : walk unix true (above ++ ["fs".toList]).reverse (r :: cs)
      = walk unix true [] cs
        ++ (r :: (above ++ ["fs".toList]).reverse).drop
          (climbs unix 0 cs) := by
    rw [walk_cons, push_name unix hrw.plain.1]
    refine walk_eq unix (fun c hc => ?_) cs
    rcases List.mem_cons.1 hc with rfl | hc
    · exact hrw.plain.1
    · exact (h.plain c (List.mem_reverse.1 hc)).1
  rw [hrel, h.walk_served hr, List.append_assoc, List.append_right_inj]
  simp only [List.reverse_append, List.reverse_singleton,
    List.singleton_append]
  cases hk : climbs unix 0 cs with
  | zero =>
      refine ⟨fun heq => ?_, fun hc => absurd hc.2 (by omega)⟩
      have hlen := congrArg List.length (List.cons.inj heq).1
      rw [List.length_append] at hlen
      change r.length = 2 + r.length at hlen
      omega
  | succ k =>
      simp only [List.drop_succ_cons]
      constructor
      · intro heq
        have hlen := congrArg List.length heq
        simp only [List.length_drop, List.length_append, List.length_cons,
          List.length_reverse] at hlen
        exact ⟨List.length_eq_zero_iff.1 (by omega), by omega⟩
      · rintro ⟨rfl, hk1⟩
        obtain rfl : k = 0 := by omega
        rfl

/-- A path that starts with the text of its mount: the two readings agree when
    the mount is `fs` alone, the component only starts with `fs`, and it is
    taken away again, but nothing above it. -/
theorem Rooted.trimmed_agrees_iff (h : Rooted pfx above) {r : Str}
    {cs : List Str} (hr : Word ("fs".toList ++ r)) :
    walk unix true (above ++ ["fs".toList]).reverse (r :: cs)
        = walk unix true [] (above ++ ("fs".toList ++ r) :: cs)
          ++ (above ++ ["fs".toList]).reverse ↔
      above = [] ∧ r ≠ [] ∧ climbs unix 0 cs = 1 := by
  by_cases hr0 : r = []
  · subst hr0
    refine ⟨fun heq => ?_, fun hc => absurd rfl hc.2.1⟩
    rw [List.append_nil] at heq
    exact absurd heq (h.trimmed_whole cs)
  · rw [h.trimmed_part hr hr0]
    exact ⟨fun hc => ⟨hc.1, hr0, hc.2⟩, fun hc => ⟨hc.1, hc.2.2⟩⟩

/-- The two readings of the path agree exactly on sound requests. -/
theorem Rooted.agrees_iff (h : Rooted pfx above) {x : Str}
    (hx : ∀ c ∈ comps unix x, Segment c) :
    walk unix true (above ++ ["fs".toList]).reverse
          (comps unix (relPath pfx ('/' :: x)))
        = walk unix true [] (comps unix x)
          ++ (above ++ ["fs".toList]).reverse ↔
      Sound pfx x := by
  have hrel : trimPrefix ('/' :: x) "/".toList = x := by
    simp [trimPrefix]
  simp only [relPath, hrel, Sound]
  by_cases ht : trimmedBase pfx <+: x
  · obtain ⟨y, rfl⟩ := ht
    obtain ⟨r, cs, hy⟩ := List.exists_cons_of_ne_nil (comps_ne_nil unix y)
    have hcomps := h.comps_trimmed hy
    have hrw : Word ("fs".toList ++ r) := by
      have hseg := hx ("fs".toList ++ r) (by rw [hcomps]; simp)
      rcases hseg with h' | h' | h' | h'
      · exact absurd h' (by simp)
      · exact absurd h' (by simp)
      · exact absurd h' (by simp)
      · exact h'
    rw [if_pos (List.prefix_append _ _)]
    have htrim : trimPrefix (trimmedBase pfx ++ y) (trimmedBase pfx) = y := by
      rw [trimPrefix, if_pos (List.prefix_append _ _), List.drop_left]
    rw [htrim, walk_trim, hy, hcomps, h.trimmed_agrees_iff hrw,
      h.emptyIff]
    constructor
    · rintro ⟨rfl, hr, hk⟩
      rw [List.nil_append, climbs_name unix hrw.plain.1]
      refine ⟨by omega, fun _ => ⟨rfl, ?_, by simp [hk]⟩⟩
      simpa using hr
    · rintro ⟨hclimb, hsafe⟩
      obtain ⟨rfl, hr, hk⟩ := hsafe (List.prefix_append _ _)
      rw [List.nil_append, climbs_name unix hrw.plain.1] at hclimb
      simp only [List.nil_append, List.tail_cons] at hk
      exact ⟨rfl, by simpa using hr, by omega⟩
  · rw [if_neg ht, h.walk_base, List.append_right_inj,
      drop_eq_self_iff (by simp)]
    exact ⟨fun hk => ⟨hk, fun h' => absurd h' ht⟩, fun hs => hs.1⟩

end Components

/-! ## The links of a listing -/

/-- What the browser shows of a directory. -/
theorem links_serve {fs : FileSystem} {pfx x : Str} (hpfx : pfx ∈ mounts)
    {info : FileInfo} {entries : List DirEntry}
    (hstat : fs.stat (filePath ('/' :: x)) = some info)
    (hdir : info.isDir)
    (hread : fs.readDir (filePath ('/' :: x)) = some entries) :
    links (serve fs (pfx ++ "/fs/".toList ++ x))
      = entries.map fun e =>
          { href := href pfx ('/' :: x) e, display := display e } := by
  have hpath : pfx ++ "/fs/".toList ++ x
      = pfx ++ "/fs".toList ++ '/' :: x := by simp
  rw [hpath, serve, route_mount hpfx]
  simp [handler, hstat, hdir, hread, links]

/-- **When the links of the file browser lead to what they show**: for every
    mount, every request that names a directory and every entry of it, exactly
    when the request is sound. -/
theorem linkLeads_iff_sound (fs : FileSystem) {pfx x : Str}
    (hpfx : pfx ∈ mounts) (hx : ∀ c ∈ comps unix x, Segment c)
    {info : FileInfo} {entries : List DirEntry}
    (hstat : fs.stat (filePath ('/' :: x)) = some info)
    (hdir : info.isDir)
    (hread : fs.readDir (filePath ('/' :: x)) = some entries)
    {i : Nat} {e : DirEntry} (hi : entries[i]? = some e)
    (he : Word e.name) : LinkLeads fs pfx x i e ↔ Sound pfx x := by
  obtain ⟨above, h⟩ := rooted_of_mount hpfx
  have hlink : LinkLeads fs pfx x i e ↔
      requested (href pfx ('/' :: x) e)
        = some (pfx, entryPath (filePath ('/' :: x)) e.name) := by
    rw [LinkLeads, links_serve hpfx hstat hdir hread, List.getElem?_map, hi]
    simp
  have hslash : ∀ y : Str, ∀ c ∈ comps unix y, '/' ∉ c :=
    fun y c hc => slash_notMem_of_mem_comps unix hc
  have hbelow := walk_plain (comps unix (relPath pfx ('/' :: x)))
    (hslash _) (fun c hc => h.plain c (List.mem_reverse.1 hc))
  have hserved := walk_plain (comps unix x) (hslash x) (s := []) (by simp)
  rw [hlink, href_eq h _ he, entryPath_eq, walk_append, walk_cons, walk_nil,
    push_name unix he.plain.1,
    requested_iff h hpfx ?_ ?_ (by simp) (by simp), ← h.agrees_iff hx]
  · rw [List.reverse_cons, ← List.append_assoc, List.append_left_inj,
      ← List.reverse_inj, List.reverse_reverse]
    simp
  · intro c hc
    rcases List.mem_cons.1 (List.mem_reverse.1 hc) with rfl | hc
    · exact he.plain
    · exact hbelow c hc
  · intro c hc
    rcases List.mem_append.1 hc with hc | hc
    · exact hserved c (List.mem_reverse.1 hc)
    · obtain rfl := List.mem_singleton.1 hc
      exact he.plain

/-- A container with one directory, `d`, and in it one file, `e`. -/
def oneFile (d e : Str) : FileSystem where
  stat p := if p = d then some { isDir := true } else none
  readDir p := if p = d then some [{ name := e, isDir := false }] else none

/-- Components that are words, or nothing after a trailing slash. -/
theorem segments_of_eq {x d : Str} (hd : Word d)
    (h : comps unix x = [d] ∨ comps unix x = [d, []]) :
    ∀ c ∈ comps unix x, Segment c := by
  intro c hc
  rcases h with h | h <;> rw [h] at hc
  · obtain rfl := List.mem_singleton.1 hc
    exact .inr (.inr (.inr hd))
  · rcases List.mem_cons.1 hc with rfl | hc
    · exact .inr (.inr (.inr hd))
    · exact .inl (List.mem_singleton.1 hc)

/-- Under the mount `/a`, the link of `/d/e` leads to it. -/
theorem linkLeads_iff_sound_d :
    LinkLeads (oneFile "/d".toList "e".toList) "/a".toList "d/".toList 0
      { name := "e".toList, isDir := false } :=
  Iff.mpr
    (linkLeads_iff_sound (oneFile "/d".toList "e".toList) (by decide)
      (segments_of_eq (d := "d".toList)
        (.of_all (by decide) (by decide))
        (.inr (by decide)))
      (show _ = some { isDir := true } from rfl) rfl rfl rfl
      (.of_all (by decide) (by decide)))
    (by decide)

/-- The listing of the directory `/fsx`, at `/fs/fsx`, shows its file `e` with
    a link to `/x/e`. -/
theorem not_linkLeads_fsx :
    ¬ ∀ (fs : FileSystem) (pfx x : Str) (info : FileInfo)
      (entries : List DirEntry) (i : Nat) (e : DirEntry),
      pfx ∈ mounts → (∀ c ∈ comps unix x, Segment c) →
      fs.stat (filePath ('/' :: x)) = some info → info.isDir →
      fs.readDir (filePath ('/' :: x)) = some entries →
      entries[i]? = some e → Word e.name → LinkLeads fs pfx x i e := by
  intro h
  obtain ⟨l, hl, hreq⟩ := h (oneFile "/fsx".toList "e".toList) [] "fsx".toList
    { isDir := true } [{ name := "e".toList, isDir := false }] 0
    { name := "e".toList, isDir := false } (by decide)
    (segments_of_eq (d := "fsx".toList)
      (.of_all (by decide) (by decide)) (.inl (by decide)))
    rfl rfl rfl rfl (.of_all (by decide) (by decide))
  have hlink : l = { href := "/fs/x/e".toList, display := "e".toList } :=
    (Option.some.inj hl).symm.trans (by decide)
  subst hlink
  exact absurd hreq (by decide)

end FileBrowser
