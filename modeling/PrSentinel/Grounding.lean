import PrSentinel.Malformed

set_option autoImplicit false

namespace PrSentinel
open Python

theorem endswith_iff {s t : String} : endswith s t = true ↔ t.toList <:+ s.toList := by
  rw [endswith, List.isSuffixOf_iff_suffix]

/-- `t` is all of the path, or its last components. -/
def Tail (s t : String) : Prop := s = t ∨ endswith s ("/" ++ t) = true

/-- One of the two paths is the other, shortened by whole components. -/
def Names (s t : String) : Prop := Tail s t ∨ Tail t s

instance (s t : String) : Decidable (Names s t) :=
  inferInstanceAs (Decidable ((s = t ∨ _) ∨ (t = s ∨ _)))

/-- What `_ground` compares a cited path by when no file has it. -/
def candidate (path : String) (f : DiffFile) : Bool := endswith f.path path || endswith path f.path

theorem Tail.suffix {s t : String} (h : Tail s t) : t.toList <:+ s.toList := by
  rcases h with rfl | h
  · exact List.suffix_refl _
  · rw [endswith_iff, String.toList_append] at h
    exact (List.suffix_append _ _).trans h

theorem lstrip_suffix (chars : List Char) (s : String) : (lstrip chars s).toList <:+ s.toList := by
  rw [lstrip, String.toList_ofList]
  exact List.dropWhile_suffix _

theorem candidate_of_names {cited : String} {f : DiffFile} (h : Names cited f.path) :
    candidate (lstrip ['.', '/'] cited) f = true := by
  have hstripped := lstrip_suffix ['.', '/'] cited
  rw [candidate, Bool.or_eq_true, endswith_iff, endswith_iff]
  rcases h with h | h
  · exact List.suffix_or_suffix_of_suffix hstripped h.suffix
  · exact .inl (hstripped.trans h.suffix)

section Resolve
variable {pr : PullRequestContext}

theorem resolve_listed {cited : String} {f : DiffFile}
    (h : pr.file (lstrip ['.', '/'] cited) = some f) : resolve pr cited = some f := by
  simp only [resolve, h]

theorem resolve_unlisted {cited : String} {f : DiffFile}
    (h : pr.file (lstrip ['.', '/'] cited) = none) :
    resolve pr cited = some f ↔ pr.files.filter (candidate (lstrip ['.', '/'] cited)) = [f] := by
  have hcandidate (path : String) : candidate path =
      fun f => endswith f.path path || endswith path f.path := rfl
  simp only [resolve, h, hcandidate]
  split
  · rename_i heq
    simp [heq]
  · rename_i hother
    exact iff_of_false (by simp) fun heq => hother f heq

variable (hpaths : (pr.files.map DiffFile.path).Nodup)
include hpaths

theorem file_eq_some_iff {path : String} {f : DiffFile} :
    pr.file path = some f ↔ f ∈ pr.files ∧ f.path = path := by
  refine ⟨file_eq_some, fun ⟨hf, hpath⟩ => ?_⟩
  cases hfile : pr.file path with
  | none =>
    have hnone := List.find?_eq_none.mp hfile f hf
    simp [hpath] at hnone
  | some g =>
    obtain ⟨hg, hgpath⟩ := file_eq_some hfile
    rw [List.inj_on_of_nodup_map hpaths hg hf (hgpath.trans hpath.symm)]

theorem filter_eq_singleton_iff {p : DiffFile → Bool} {f : DiffFile} :
    pr.files.filter p = [f] ↔ f ∈ pr.files ∧ p f = true ∧ ∀ g ∈ pr.files, p g = true → g = f := by
  have hnodup : (pr.files.filter p).Nodup := hpaths.of_map.filter p
  constructor
  · intro h
    have hmem (g : DiffFile) : g ∈ pr.files ∧ p g = true ↔ g = f := by
      rw [← List.mem_filter, h, List.mem_singleton]
    obtain ⟨hf, hp⟩ := (hmem f).mpr rfl
    exact ⟨hf, hp, fun g hg hpg => (hmem g).mp ⟨hg, hpg⟩⟩
  · rintro ⟨hf, hp, hunique⟩
    refine List.perm_singleton.mp
      ((List.perm_ext_iff_of_nodup hnodup (List.nodup_singleton f)).mpr ?_)
    intro g
    rw [List.mem_filter, List.mem_singleton]
    constructor
    · exact fun hg => hunique g hg.1 hg.2
    · rintro rfl
      exact ⟨hf, hp⟩

theorem resolve_eq_some_iff {cited : String} {f : DiffFile} :
    resolve pr cited = some f ↔ f ∈ pr.files ∧ (f.path = lstrip ['.', '/'] cited ∨
      (∀ g ∈ pr.files, g.path ≠ lstrip ['.', '/'] cited) ∧
        candidate (lstrip ['.', '/'] cited) f = true ∧
        ∀ g ∈ pr.files, candidate (lstrip ['.', '/'] cited) g = true → g = f) := by
  cases hfile : pr.file (lstrip ['.', '/'] cited) with
  | some g =>
    obtain ⟨hg, hgpath⟩ := file_eq_some hfile
    have hnone : ¬ ∀ g ∈ pr.files, g.path ≠ lstrip ['.', '/'] cited := fun h => h g hg hgpath
    rw [resolve_listed hfile, ← hfile, file_eq_some_iff hpaths]
    simp [hnone]
  | none =>
    have habsent : ∀ g ∈ pr.files, g.path ≠ lstrip ['.', '/'] cited := by
      intro g hg heq
      rw [(file_eq_some_iff hpaths).mpr ⟨hg, heq⟩] at hfile
      cases hfile
    rw [resolve_unlisted hfile, filter_eq_singleton_iff hpaths]
    constructor
    · rintro ⟨hf, h⟩
      exact ⟨hf, .inr ⟨habsent, h⟩⟩
    · rintro ⟨hf, h | ⟨-, h⟩⟩
      · exact absurd h (habsent f hf)
      · exact ⟨hf, h⟩

/-- The path a citation is compared by leads to the file it names, or to none. -/
structure Resolvable (pr : PullRequestContext) (cited : String) : Prop where
  exact : (∃ f ∈ pr.files, f.path = cited) → lstrip ['.', '/'] cited = cited ∨
    ∀ g ∈ pr.files, candidate (lstrip ['.', '/'] cited) g = true → g.path = cited
  stripped : (∀ f ∈ pr.files, f.path ≠ cited) → (∃ f ∈ pr.files, f.path = lstrip ['.', '/'] cited) →
    endswith cited ("/" ++ lstrip ['.', '/'] cited) = true ∧
      ∀ g ∈ pr.files, Names cited g.path → g.path = lstrip ['.', '/'] cited
  shortened : (∀ f ∈ pr.files, f.path ≠ cited) →
    (∀ f ∈ pr.files, f.path ≠ lstrip ['.', '/'] cited) →
    ∀ f ∈ pr.files, candidate (lstrip ['.', '/'] cited) f = true →
      (∀ g ∈ pr.files, candidate (lstrip ['.', '/'] cited) g = true → g = f) → Names cited f.path

omit hpaths in
theorem names_stripped {cited : String} (hne : lstrip ['.', '/'] cited ≠ cited) :
    Names cited (lstrip ['.', '/'] cited) ↔
      endswith cited ("/" ++ lstrip ['.', '/'] cited) = true := by
  have hlonger : endswith (lstrip ['.', '/'] cited) ("/" ++ cited) ≠ true := by
    intro h
    have hlength := (endswith_iff.mp h).length_le
    have hshort := (lstrip_suffix ['.', '/'] cited).length_le
    simp only [String.toList_append, List.length_append] at hlength
    have hslash : "/".toList.length = 1 := rfl
    omega
  simp [Names, Tail, hne, hne.symm, hlonger]

theorem eq_of_path_eq {f g : DiffFile} (hf : f ∈ pr.files) (hg : g ∈ pr.files)
    (h : f.path = g.path) : f = g := List.inj_on_of_nodup_map hpaths hf hg h

theorem resolve_own_iff {f : DiffFile} (hf : f ∈ pr.files) :
    resolve pr f.path = some f ↔ lstrip ['.', '/'] f.path = f.path ∨
      ∀ g ∈ pr.files, candidate (lstrip ['.', '/'] f.path) g = true → g.path = f.path := by
  rw [resolve_eq_some_iff hpaths, and_iff_right hf]
  constructor
  · rintro (h | ⟨-, -, hunique⟩)
    · exact .inl h.symm
    · exact .inr fun g hg hcandidate => congrArg DiffFile.path (hunique g hg hcandidate)
  · rintro (h | honly)
    · exact .inl h.symm
    · by_cases hstripped : ∃ g ∈ pr.files, g.path = lstrip ['.', '/'] f.path
      · obtain ⟨g, hg, hgpath⟩ := hstripped
        have hcandidate : candidate (lstrip ['.', '/'] f.path) g = true := by
          rw [candidate, hgpath, Bool.or_eq_true]
          exact .inl (endswith_iff.mpr (List.suffix_refl _))
        exact .inl ((honly g hg hcandidate).symm.trans hgpath)
      · refine .inr ⟨fun g hg heq => hstripped ⟨g, hg, heq⟩, ?_, fun g hg hcandidate => ?_⟩
        · exact candidate_of_names (.inl (.inl rfl))
        · exact eq_of_path_eq hpaths hg hf (honly g hg hcandidate)

theorem named_stripped_iff {cited : String} {f : DiffFile} (hf : f ∈ pr.files)
    (hpath : f.path = lstrip ['.', '/'] cited) (hother : f.path ≠ cited) :
    (Names cited f.path ∧ ∀ g ∈ pr.files, Names cited g.path → g = f) ↔
      endswith cited ("/" ++ lstrip ['.', '/'] cited) = true ∧
        ∀ g ∈ pr.files, Names cited g.path → g.path = lstrip ['.', '/'] cited := by
  rw [← names_stripped (hpath ▸ hother), ← hpath]
  refine and_congr_right fun _ => forall₂_congr fun g hg => imp_congr_right fun _ => ?_
  exact ⟨congrArg DiffFile.path, eq_of_path_eq hpaths hg hf⟩

/-- A citation finds its file, or else only one that it names and no other file shares
the name with, exactly if what is left of it without leading dots and slashes does. -/
theorem resolves_as_named_iff (cited : String) :
    ((∀ f ∈ pr.files, f.path = cited → resolve pr cited = some f) ∧
      ((∀ f ∈ pr.files, f.path ≠ cited) → ∀ f, resolve pr cited = some f →
        Names cited f.path ∧ ∀ g ∈ pr.files, Names cited g.path → g = f)) ↔
      Resolvable pr cited := by
  constructor
  · rintro ⟨hexact, hother⟩
    refine ⟨?_, ?_, ?_⟩
    · rintro ⟨f, hf, rfl⟩
      exact (resolve_own_iff hpaths hf).mp (hexact f hf rfl)
    · rintro habsent ⟨f, hf, hpath⟩
      have hresolve := (resolve_eq_some_iff hpaths).mpr ⟨hf, .inl hpath⟩
      exact (named_stripped_iff hpaths hf hpath (habsent f hf)).mp (hother habsent f hresolve)
    · intro habsent hstripped f hf hcandidate hunique
      have hresolve := (resolve_eq_some_iff hpaths).mpr ⟨hf, .inr ⟨hstripped, hcandidate, hunique⟩⟩
      exact (hother habsent f hresolve).1
  · intro h
    constructor
    · rintro f hf rfl
      exact (resolve_own_iff hpaths hf).mpr (h.exact ⟨f, hf, rfl⟩)
    · intro habsent f hresolve
      obtain ⟨hf, hpath | ⟨hstripped, hcandidate, hunique⟩⟩ :=
        (resolve_eq_some_iff hpaths).mp hresolve
      · exact (named_stripped_iff hpaths hf hpath (habsent f hf)).mpr
          (h.stripped habsent ⟨f, hf, hpath⟩)
      · exact ⟨h.shortened habsent hstripped f hf hcandidate hunique,
          fun g hg hnames => hunique g hg (candidate_of_names hnames)⟩

end Resolve

def prOf (paths : List String) : PullRequestContext where
  repoFullName := "acme/app"
  repoGithubId := 1
  number := 7
  files := paths.map fun path => { path }

/-- A dotfile is taken for its namesake without the dot; a name that merely ends alike
is taken for the one cited. -/
theorem misread_paths :
    (((prOf [".env", "env"]).files.map DiffFile.path).Nodup ∧
      (resolve (prOf [".env", "env"]) ".env").map DiffFile.path = some "env") ∧
    (((prOf ["app.py"]).files.map DiffFile.path).Nodup ∧
      (resolve (prOf ["app.py"]) "p.py").map DiffFile.path = some "app.py" ∧
      ¬ Names "p.py" "app.py") := by
  decide +kernel

/-- A path cited from the root of the repository, and from inside a directory. -/
theorem lengthened_paths_resolve :
    let pr := prOf ["src/app.py", "docs/index.md"]
    (∀ f, resolve pr "./src/app.py" = some f →
        Names "./src/app.py" f.path ∧ ∀ g ∈ pr.files, Names "./src/app.py" g.path → g = f) ∧
      (resolve pr "app.py").map DiffFile.path = some "src/app.py" := by
  intro pr
  have hpaths : (pr.files.map DiffFile.path).Nodup := by decide
  refine ⟨((resolves_as_named_iff hpaths "./src/app.py").mpr ⟨?_, ?_, ?_⟩).2 ?_, ?_⟩ <;>
    decide +kernel

/-- A raw finding with values of the right types, about a path; the other keys may hold anything. -/
structure WellTyped [Interp] (raw : List (String × Json)) (path title rationale : String)
    (start stop : ℤ) (confidence : ℚ) : Prop where
  filePath : Json.lookup "file_path" raw = some (.str path)
  title : Json.lookup "title" raw = some (.str title)
  body : ∃ text, Json.lookup "body" raw = some (.str text)
  rationale : Json.lookup "rationale" raw = some (.str rationale)
  lineStart : Json.lookup "line_start" raw = some (.int start)
  lineEnd : Json.lookup "line_end" raw = some (.int stop)
  confidence : ∃ number, Json.lookup "confidence" raw = some number ∧
    number.toFloat = .ok (.fin confidence)
  listed : ∃ items, Json.lookup "evidence" raw = some (.arr items)

/-- Where a finding cited at `start` belongs. -/
structure Placement (file : DiffFile) (start : ℤ) (confidence : ℚ) (f : Finding) (snapped : Bool) :
    Prop where
  sameFile : f.filePath = file.path
  inDiff : f.lineStart ∈ file.addressableLines
  exact : start ∈ file.addressableLines → f.lineStart = start
  nearest : ∀ n ∈ file.addressableLines, |f.lineStart - start| ≤ |n - start|
  order : f.lineStart ≤ f.lineEnd
  last : ∃ top, file.addressableLines.max? = some top ∧ f.lineEnd ≤ top
  clamped : f.confidence = max 0 (min 1 confidence)
  moved : snapped = true ↔ f.lineStart ≠ start

theorem lstrip_clean {chars : List Char} {s : String} (h : ∀ c ∈ s.toList.head?, c ∉ chars) :
    lstrip chars s = s := by
  rw [lstrip, ← String.ofList_toList (s := s)]
  cases hs : s.toList with
  | nil => simp
  | cons c cs =>
    have hc : c ∉ chars := h c (by rw [hs]; rfl)
    simp [hc]

section Interp
variable [Interp]

theorem anchor_nearest {addressable : List ℤ} {top start stop first last : ℤ} {snapped : Bool}
    (h : anchor addressable top start stop = some (first, last, snapped)) :
    (∀ n ∈ addressable, |first - start| ≤ |n - start|) ∧ (snapped = true ↔ first ≠ start) := by
  unfold anchor at h
  split at h
  · cases h
    exact ⟨fun n _ => by simp, by simp⟩
  · rename_i hstart
    split at h
    · cases h
    · rename_i near hnear
      split at h
      · cases h
      · cases h
        have hmem := (Interp.mem_setOrder _ _).mp (nearest_mem hnear)
        refine ⟨fun n hn => nearest_le hnear n ((Interp.mem_setOrder _ _).mpr hn), ?_⟩
        exact iff_of_true rfl fun heq => hstart (heq ▸ hmem)

theorem Placement.of_anchor {file : DiffFile} {top start stop last : ℤ} {confidence : ℚ}
    {f : Finding} {snapped : Bool} (htop : file.addressableLines.max? = some top)
    (h : anchor file.addressableLines top start stop = some (f.lineStart, last, snapped))
    (hfile : f.filePath = file.path) (hend : f.lineEnd = max last f.lineStart)
    (hconfidence : f.confidence = max 0 (min 1 confidence)) :
    Placement file start confidence f snapped := by
  have hmax : ∀ n ∈ file.addressableLines, n ≤ top := (List.max?_eq_some_iff.mp htop).2
  obtain ⟨hmem, horder, hlast⟩ := anchor_spec hmax h
  obtain ⟨hnearest, hmoved⟩ := anchor_nearest h
  refine ⟨hfile, hmem, fun hstart => ?_, hnearest, f.lineOrder, ⟨top, htop, ?_⟩, hconfidence, hmoved⟩
  · have hzero := hnearest start hstart
    rw [sub_self, abs_zero] at hzero
    exact sub_eq_zero.mp (abs_nonpos_iff.mp hzero)
  · rw [hend]
    exact max_le hlast (horder.trans hlast)

theorem resolve_cited {raw : List (String × Json)} {path : String} {pr : PullRequestContext}
    {file : DiffFile} (hcited : Json.lookup "file_path" raw = some (.str path))
    (hfile : pr.file path = some file) (hpath : ∀ c ∈ path.toList.head?, c ≠ '.' ∧ c ≠ '/') :
    resolve pr (Json.getD raw "file_path" (.str "")).toStr = some file := by
  have hstrip : lstrip ['.', '/'] path = path := lstrip_clean fun c hc => by simpa using hpath c hc
  simp only [Json.getD, hcited, Option.getD_some, Json.toStr]
  exact resolve_listed (hstrip.symm ▸ hfile)

theorem WellTyped.numbers {raw : List (String × Json)} {path title rationale : String}
    {start stop : ℤ} {confidence : ℚ}
    (h : WellTyped raw path title rationale start stop confidence) :
    readNumbers raw = .ok ⟨start, stop, .fin confidence⟩ := by
  obtain ⟨number, hnumber, hvalue⟩ := h.confidence
  simp only [readNumbers, Json.getD, h.lineStart, h.lineEnd, hnumber, Option.getD_some, Json.toInt,
    hvalue]
  rfl

variable [Pydantic]

theorem WellTyped.evidence_ok {raw : List (String × Json)} {path title rationale : String}
    {start stop : ℤ} {confidence : ℚ} (h : WellTyped raw path title rationale start stop confidence)
    (defaultPath : String) :
    ∃ out, evidence (Json.getD raw "evidence" .null) defaultPath = .ok out := by
  obtain ⟨items, hitems⟩ := h.listed
  cases hevidence : evidence (Json.getD raw "evidence" .null) defaultPath with
  | ok out => exact ⟨out, rfl⟩
  | error e =>
    have hunlistable := (evidence_error.mp hevidence).2
    simp [Json.getD, hitems, Json.unlistable] at hunlistable

theorem ground_wellTyped {pr : PullRequestContext} {file : DiffFile} {path title rationale : String}
    {start stop : ℤ} {confidence : ℚ} {raw : List (String × Json)} (agent : AgentType) (id : UUID)
    (hfile : pr.file path = some file) (hpath : ∀ c ∈ path.toList.head?, c ≠ '.' ∧ c ≠ '/')
    (hraw : WellTyped raw path title rationale start stop confidence) :
    ((∃ f snapped, ground agent id raw pr = .ok (some (f, snapped))) ↔
      (∃ n ∈ file.addressableLines, |n - start| ≤ snapWindow) ∧
        strip (upto 200 title) ≠ "" ∧ strip (upto 4000 rationale) ≠ "") ∧
    (∃ grounded, ground agent id raw pr = .ok grounded) ∧
    ∀ f snapped, ground agent id raw pr = .ok (some (f, snapped)) →
      Placement file start confidence f snapped := by
  have htitle : (Json.getD raw "title" (.str "")).toStr = title := by
    simp [Json.getD, hraw.title, Json.toStr]
  have hrationale : (Json.getD raw "rationale" (.str "")).toStr = rationale := by
    simp [Json.getD, hraw.rationale, Json.toStr]
  obtain ⟨items, hitems⟩ := hraw.evidence_ok file.path
  unfold ground
  rw [resolve_cited hraw.filePath hfile hpath]
  dsimp only
  cases htop : file.addressableLines.max? with
  | none =>
    have hnil := List.max?_eq_none_iff.mp htop
    refine ⟨iff_of_false (by simp) ?_, ⟨_, rfl⟩, by simp⟩
    simp [hnil]
  | some top =>
    rw [hraw.numbers]
    dsimp only
    cases hanchor : anchor file.addressableLines top start stop with
    | none =>
      have hfar := (anchor_eq_none_iff _ _ _ _).mp hanchor
      exact ⟨iff_of_false (by simp) fun h => hfar h.1, ⟨_, rfl⟩, by simp⟩
    | some place =>
      obtain ⟨first, last, snapped⟩ := place
      have hclose : ∃ n ∈ file.addressableLines, |n - start| ≤ snapWindow := by
        by_contra hfar
        simp [(anchor_eq_none_iff _ top _ stop).mpr hfar] at hanchor
      simp only [hitems, htitle, hrationale, bind, Except.bind]
      split
      · rename_i hblank
        refine ⟨iff_of_false (by simp [pure, Except.pure]) ?_, ⟨_, rfl⟩,
          by simp [pure, Except.pure]⟩
        rintro ⟨-, ht, hr⟩
        exact hblank.elim ht hr
      · rename_i hfull
        refine ⟨iff_of_true ⟨_, _, rfl⟩ ⟨hclose, not_or.mp hfull⟩, ⟨_, rfl⟩, ?_⟩
        intro f snapped' hok
        cases hok
        exact .of_anchor htop hanchor rfl rfl rfl

/-- A raw finding of the right types whose confidence is a number. -/
structure NumberTyped (raw : List (String × Json)) (path title rationale : String)
    (start stop : ℤ) (confidence : ℚ) : Prop where
  filePath : Json.lookup "file_path" raw = some (.str path)
  title : Json.lookup "title" raw = some (.str title)
  body : ∃ text, Json.lookup "body" raw = some (.str text)
  rationale : Json.lookup "rationale" raw = some (.str rationale)
  lineStart : Json.lookup "line_start" raw = some (.int start)
  lineEnd : Json.lookup "line_end" raw = some (.int stop)
  confidence : Json.lookup "confidence" raw = some (.float (.fin confidence)) ∨
    ∃ n : ℤ, confidence = n ∧ Json.lookup "confidence" raw = some (.int n)
  listed : ∃ items, Json.lookup "evidence" raw = some (.arr items)

/-- What `_ground` owes such a finding. -/
structure GroundedExactly (agent : AgentType) (id : UUID) (raw : List (String × Json))
    (pr : PullRequestContext) (file : DiffFile) (title rationale : String) (start : ℤ)
    (confidence : ℚ) : Prop where
  returns : ∃ grounded, ground agent id raw pr = .ok grounded
  kept : (∃ f snapped, ground agent id raw pr = .ok (some (f, snapped))) ↔
    (∃ n ∈ file.addressableLines, |n - start| ≤ snapWindow) ∧
      strip (upto 200 title) ≠ "" ∧ strip (upto 4000 rationale) ≠ ""
  placed : ∀ f snapped, ground agent id raw pr = .ok (some (f, snapped)) →
    Placement file start confidence f snapped

omit [Interp] [Pydantic] in
theorem clamp_intCast (n : ℤ) : max 0 (min 1 (toBinary64 n)) = max 0 (min 1 (n : ℚ)) := by
  rcases le_or_gt n 0 with hn | hn
  · have hzero : (n : ℚ) ≤ 0 := by exact_mod_cast hn
    have hround := toBinary64_nonpos hzero
    rw [max_eq_left ((min_le_right _ _).trans hround), max_eq_left ((min_le_right _ _).trans hzero)]
  · have hone : (1 : ℚ) ≤ n := by exact_mod_cast hn
    rw [min_eq_left (one_le_toBinary64 hone), min_eq_left hone]

section NumberTyped
variable {pr : PullRequestContext} {file : DiffFile} {path title rationale : String}
  {start stop : ℤ} {confidence : ℚ} {raw : List (String × Json)}
  (hraw : NumberTyped raw path title rationale start stop confidence)
include hraw

omit [Pydantic] in
theorem NumberTyped.wellTyped (hfits : (Json.getD raw "confidence" .null).immense = false) :
    ∃ value, WellTyped raw path title rationale start stop value ∧
      max 0 (min 1 value) = max 0 (min 1 confidence) := by
  rcases hraw.confidence with hfloat | ⟨n, rfl, hint⟩
  · exact ⟨confidence, ⟨hraw.filePath, hraw.title, hraw.body, hraw.rationale, hraw.lineStart,
      hraw.lineEnd, ⟨_, hfloat, rfl⟩, hraw.listed⟩, rfl⟩
  · have hfloat : floatOfInt n = .ok (.fin (toBinary64 n)) := by
      cases hvalue : floatOfInt n with
      | error e =>
        have hbound := (floatOfInt_error.mp hvalue).2
        simp [Json.getD, hint, Json.immense, hbound] at hfits
      | ok value =>
        unfold floatOfInt Flt.ofRat at hvalue
        split_ifs at hvalue
        cases hvalue
        rfl
    exact ⟨toBinary64 n, ⟨hraw.filePath, hraw.title, hraw.body, hraw.rationale, hraw.lineStart,
      hraw.lineEnd, ⟨_, hint, hfloat⟩, hraw.listed⟩, clamp_intCast n⟩

omit [Pydantic] in
theorem NumberTyped.overflows (hhuge : (Json.getD raw "confidence" .null).immense = true) :
    readNumbers raw = .error .overflowError := by
  rcases hraw.confidence with hfloat | ⟨n, rfl, hint⟩
  · simp [Json.getD, hfloat, Json.immense] at hhuge
  · have htoFloat : (Json.int n).toFloat = .error .overflowError :=
      Json.toFloat_immense (by simpa [Json.getD, hint] using hhuge)
    simp only [readNumbers, Json.getD, hraw.lineStart, hraw.lineEnd, hint, Option.getD_some,
      Json.toInt, htoFloat]
    rfl

/-- A finding about a file is grounded as it should be exactly if its confidence is not an
integer that no `float` comes near to, or the diff has no line of the file anyway. -/
theorem ground_exact (agent : AgentType) (id : UUID) (hfile : pr.file path = some file)
    (hpath : ∀ c ∈ path.toList.head?, c ≠ '.' ∧ c ≠ '/') :
    GroundedExactly agent id raw pr file title rationale start confidence ↔
      (Json.getD raw "confidence" .null).immense = false ∨ file.addressableLines = [] := by
  have hresolved := resolve_cited hraw.filePath hfile hpath
  cases hhuge : (Json.getD raw "confidence" .null).immense with
  | false =>
    obtain ⟨value, htyped, hclamp⟩ := hraw.wellTyped hhuge
    obtain ⟨hkept, hreturns, hplaced⟩ := ground_wellTyped agent id hfile hpath htyped
    refine iff_of_true ⟨hreturns, hkept, fun f snapped hok => ?_⟩ (.inl rfl)
    have hplacement := hplaced f snapped hok
    exact { hplacement with clamped := hplacement.clamped.trans hclamp }
  | true =>
    rw [or_iff_right (by simp)]
    cases htop : file.addressableLines.max? with
    | none =>
      have hnil := List.max?_eq_none_iff.mp htop
      have hnone : ground agent id raw pr = .ok none := by
        simp only [ground, hresolved, htop]
      refine iff_of_true ⟨⟨_, hnone⟩, iff_of_false ?_ ?_, ?_⟩ hnil
      · simp [hnone]
      · simp [hnil]
      · simp [hnone]
    | some top =>
      have hraises : ground agent id raw pr = .error .overflowError := by
        simp [ground, hresolved, htop, hraw.overflows hhuge, Exc.isValueError]
      refine iff_of_false ?_ ?_
      · rintro ⟨⟨grounded, hok⟩, -, -⟩
        rw [hraises] at hok
        cases hok
      · intro hnil
        simp [hnil] at htop

end NumberTyped

end Interp

def nearMiss (confidence : Json) : List (String × Json) :=
  [("file_path", .str "app.py"), ("line_start", .int 3), ("line_end", .int 9),
    ("confidence", confidence), ("title", .str "t"), ("body", .str ""),
    ("rationale", .str "r"), ("evidence", .arr [])]

theorem near_miss_placed :
    let _ := asciiInterp
    let _ := strictPydantic
    ∃ file f snapped, appPr.file "app.py" = some file ∧
      ground .security 1 (nearMiss (.int 2)) appPr = .ok (some (f, snapped)) ∧
      Placement file 3 2 f snapped := by
  intro _ _
  obtain ⟨file, hfile, hlines⟩ : ∃ file, appPr.file "app.py" = some file ∧
      file.addressableLines = [1] := ⟨_, rfl, rfl⟩
  have hraw : NumberTyped (nearMiss (.int 2)) "app.py" "t" "r" 3 9 2 :=
    ⟨rfl, rfl, ⟨"", rfl⟩, rfl, rfl, rfl, .inr ⟨2, rfl, rfl⟩, ⟨[], rfl⟩⟩
  obtain ⟨-, hkept, hplaced⟩ :=
    (ground_exact hraw .security 1 hfile (by simp)).mpr (.inl (by decide +kernel))
  have hclose : ∃ n ∈ file.addressableLines, |n - 3| ≤ snapWindow := by
    rw [hlines]
    exact ⟨1, by simp, by decide⟩
  obtain ⟨f, snapped, hground⟩ := hkept.mpr ⟨hclose, by decide +kernel, by decide +kernel⟩
  exact ⟨file, f, snapped, hfile, hground, hplaced f snapped hground⟩

def immenseConfidence : ℤ := 10 ^ 400

theorem immense_confidence_raises :
    let _ := asciiInterp
    let _ := strictPydantic
    let raw := nearMiss (.int immenseConfidence)
    NumberTyped raw "app.py" "t" "r" 3 9 immenseConfidence ∧
      ∃ file, appPr.file "app.py" = some file ∧
        ¬ GroundedExactly .security 1 raw appPr file "t" "r" 3 immenseConfidence := by
  intro _ _ raw
  refine ⟨⟨rfl, rfl, ⟨"", rfl⟩, rfl, rfl, rfl, .inr ⟨_, rfl, rfl⟩, ⟨[], rfl⟩⟩, _, rfl, ?_⟩
  rintro ⟨⟨grounded, hok⟩, -, -⟩
  have hraises : (ground .security 1 raw appPr).toOption.isSome = false := by decide +kernel
  simp [hok, Except.toOption] at hraises

end PrSentinel
