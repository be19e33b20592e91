import Mathlib.Data.Int.ConditionallyCompleteOrder
import Mathlib.Order.Interval.Set.OrdConnected
import PrSentinel.Gate
import PrSentinel.GitHub
import PrSentinel.Specialist

/-!
Where the inline comments land. The first line of a grounded finding is a line of
the diff; its last line is only kept below the largest one.
-/

set_option autoImplicit false

namespace PrSentinel
open Python Greedy

def InDiff (pr : PullRequestContext) (path : String) (line : ℤ) : Prop :=
  ∃ file, pr.file path = some file ∧ line ∈ file.addressableLines

def GapFree (file : DiffFile) : Prop := {n | n ∈ file.addressableLines}.OrdConnected

theorem file_eq_some {pr : PullRequestContext} {path : String} {file : DiffFile}
    (h : pr.file path = some file) : file ∈ pr.files ∧ file.path = path :=
  ⟨List.mem_of_find?_eq_some h, by simpa using List.find?_some h⟩

theorem resolve_file {pr : PullRequestContext} {cited : String} {file : DiffFile}
    (h : resolve pr cited = some file) : pr.file file.path = some file := by
  unfold resolve at h
  simp only at h
  split at h
  · rename_i f hf
    cases h
    rw [(file_eq_some hf).2, hf]
  · split at h
    · rename_i f hcandidates
      cases h
      have hmem : file ∈ pr.files.filter (fun f => endswith f.path (lstrip ['.', '/'] cited) ||
          endswith (lstrip ['.', '/'] cited) f.path) := by
        rw [hcandidates]
        exact List.mem_singleton_self _
      obtain ⟨hfile, hends⟩ := List.mem_filter.mp hmem
      cases hfound : pr.file file.path with
      | none =>
        have hpath := List.find?_eq_none.mp hfound file hfile
        simp at hpath
      | some other =>
        -- a namesake would be a second candidate
        obtain ⟨hother, hpath⟩ := file_eq_some hfound
        have hcandidate : other ∈ pr.files.filter (fun f =>
            endswith f.path (lstrip ['.', '/'] cited) ||
              endswith (lstrip ['.', '/'] cited) f.path) :=
          List.mem_filter.mpr ⟨hother, by rw [hpath]; exact hends⟩
        rw [hcandidates, List.mem_singleton] at hcandidate
        rw [hcandidate]
    · cases h

theorem nearest_mem {start near : ℤ} {lines : List ℤ} (h : nearest start lines = some near) :
    near ∈ lines := by
  cases lines with
  | nil => cases h
  | cons n ns =>
    simp only [nearest, Option.some.injEq] at h
    have hfold : ∀ (ms : List ℤ) (best : ℤ),
        ms.foldl (fun best m => if |m - start| < |best - start| then m else best) best ∈
          best :: ms := by
      intro ms
      induction ms with
      | nil => simp
      | cons m ms ih =>
        intro best
        rcases List.mem_cons.mp (ih (if |m - start| < |best - start| then m else best)) with h | h
        · rw [List.foldl_cons, h]
          split <;> simp
        · exact List.mem_cons_of_mem _ (List.mem_cons_of_mem _ h)
    rw [← h]
    exact hfold ns n

section Interp
variable [Interp]

/-- What `_ground` settles on: it starts in the diff and ends no later than the diff does. -/
theorem anchor_spec {addressable : List ℤ} {top start stop first last : ℤ} {snapped : Bool}
    (htop : ∀ n ∈ addressable, n ≤ top)
    (h : anchor addressable top start stop = some (first, last, snapped)) :
    first ∈ addressable ∧ first ≤ last ∧ last ≤ top := by
  unfold anchor at h
  split at h
  · rename_i hstart
    cases h
    exact ⟨hstart, le_max_left _ _, max_le (htop _ hstart) (min_le_right _ _)⟩
  · split at h
    · cases h
    · rename_i near hnear
      split at h
      · cases h
      · cases h
        have hmem := (Interp.mem_setOrder _ _).mp (nearest_mem hnear)
        exact ⟨hmem, le_max_left _ _, max_le (htop _ hmem) (min_le_right _ _)⟩

variable [Pydantic]

/-- What a grounded finding owes the diff. -/
def Grounded (pr : PullRequestContext) (f : Finding) : Prop :=
  ∃ cited file top, resolve pr cited = some file ∧ f.filePath = file.path ∧
    file.addressableLines.max? = some top ∧ f.lineStart ∈ file.addressableLines ∧ f.lineEnd ≤ top

theorem ground_grounded {agent : AgentType} {id : UUID} {raw : List (String × Json)}
    {pr : PullRequestContext} {f : Finding} {snapped : Bool}
    (h : ground agent id raw pr = .ok (some (f, snapped))) : Grounded pr f := by
  unfold ground at h
  split at h
  · cases h
  · rename_i file hfile
    split at h
    · cases h
    · rename_i top htop
      split at h
      · split at h <;> cases h
      · rename_i numbers hnumbers
        split at h
        · cases h
        · rename_i first last wasSnapped hanchor
          obtain ⟨hfirst, hle, hlast⟩ := anchor_spec
            (fun n hn => (List.max?_eq_some_iff.mp htop).2 n hn) hanchor
          obtain ⟨items, _, h⟩ := ok_of_bind h
          dsimp only at h
          split at h
          · cases h
          · cases h
            exact ⟨_, file, top, hfile, rfl, htop, hfirst, max_le hlast (le_trans hle hlast)⟩

theorem groundAll_grounded {agent : AgentType} {pr : PullRequestContext} {ids : ℕ → UUID}
    {raws : List Json} {parsed : Parsed} (h : groundAll agent pr ids raws = .ok parsed) :
    ∀ f ∈ parsed.findings, Grounded pr f := by
  induction raws generalizing ids parsed with
  | nil =>
    simp only [groundAll, pure, Except.pure, Except.ok.injEq] at h
    subst h
    simp
  | cons raw raws ih =>
    obtain ⟨grounded, hgrounded, h⟩ := ok_of_bind h
    obtain ⟨rest, hrest, h⟩ := ok_of_bind h
    cases grounded with
    | none =>
      cases h
      exact fun f hf => ih hrest f hf
    | some pair =>
      obtain ⟨finding, snapped⟩ := pair
      cases h
      intro f hf
      rcases List.mem_cons.mp hf with rfl | hf
      · cases raw with
        | obj pairs => exact ground_grounded hgrounded
        | _ => cases hgrounded
      · exact ih hrest f hf

theorem parsePayload_grounded {agent : AgentType} {pr : PullRequestContext} {ids : ℕ → UUID}
    {payload : Json} {parsed : Parsed} (h : parsePayload agent pr ids payload = .ok parsed) :
    ∀ f ∈ parsed.findings, Grounded pr f := by
  cases payload with
  | obj pairs =>
    obtain ⟨raws, _, h⟩ := ok_of_bind h
    obtain ⟨inner, hinner, h⟩ := ok_of_bind h
    cases h
    exact fun f hf => groundAll_grounded hinner f hf
  | _ => cases h

theorem parse_grounded {agent : AgentType} {pr : PullRequestContext} {ids : ℕ → UUID}
    {text : List Char} {parsed : Parsed} (h : parse agent pr ids text = .ok parsed) :
    ∀ f ∈ parsed.findings, Grounded pr f := by
  obtain ⟨payload, _, h⟩ := ok_of_bind h
  cases payload with
  | none =>
    cases h
    simp
  | some value => exact parsePayload_grounded h

theorem runPanel_grounded {turns : AgentType → Turn} {pr : PullRequestContext}
    {agents : List AgentType} :
    ∀ v ∈ runPanel turns pr agents, ∀ f ∈ v.findings, Grounded pr f := by
  intro v hv f hf
  obtain ⟨a, _, rfl⟩ := List.mem_map.mp hv
  cases houtcome : (turns a).outcome with
  | response r =>
    cases hparse : parse a pr (turns a).ids r.text.toList with
    | error e => simp [runAgent, houtcome, hparse, bind, Except.bind, seat] at hf
    | ok parsed =>
      simp only [runAgent, houtcome, hparse, bind, Except.bind, pure, Except.pure, seat] at hf
      exact parse_grounded hparse f hf
  | _ => simp [runAgent, houtcome, seat, failed] at hf

end Interp

theorem report_keeps [Interp] {P : String → ℤ → Prop} (settings : Settings)
    {verdicts : List AgentVerdict} (h : ∀ f ∈ okFindings verdicts, P f.filePath f.lineEnd) :
    ∀ g ∈ (aggregate settings verdicts).1, P g.filePath g.lineEnd := by
  have hmerge : ∀ g ∈ merge (okFindings verdicts), P g.filePath g.lineEnd := by
    intro g hg
    obtain ⟨c, hc, rfl⟩ := List.mem_map.mp hg
    obtain ⟨f, hf, hend⟩ := maxEnd_mem c
    have hpath : (primary c).filePath = f.filePath :=
      clusters_share Finding.filePath (fun _ _ => sameIssue_path) hc (primary_mem c) hf
    rw [collapse_filePath, collapse_lineEnd, hpath, hend]
    exact h f (mem_of_mem_clusters hc hf)
  intro g hg
  have hmem := (aggregate_perm settings verdicts).mem_iff.mp hg
  rcases mem_collapseRepeated.mp hmem with ⟨hg, _⟩ | ⟨group, hgroup, hg⟩
  · exact hmerge g hg
  · have hmember : ∀ x ∈ group.members, x ∈ merge (okFindings verdicts) := fun x hx =>
      (List.mem_filter.mp (mem_of_mem_clusters hgroup hx)).1
    split at hg
    · exact hmerge g (hmember g hg)
    · rw [hg, fold_filePath, fold_lineEnd]
      exact hmerge _ (hmember _ (primary_mem group))

def comments (r : GateResult) : List Comment := (reviewRequest "" "" r.postable).comments

theorem comments_inDiff [Interp] {pr : PullRequestContext} (settings : Settings)
    {verdicts : List AgentVerdict} (h : ∀ f ∈ okFindings verdicts, InDiff pr f.filePath f.lineEnd)
    (budgetExhausted isPublicRepo : Bool) :
    ∀ c ∈ comments (panelGate settings verdicts budgetExhausted isPublicRepo),
      InDiff pr c.path c.line := by
  intro c hc
  obtain ⟨f, hf, rfl⟩ := List.mem_map.mp hc
  rw [panelGate, gate_postable] at hf
  split at hf
  · exact report_keeps settings h f (List.mem_filter.mp hf).1
  · cases hf

theorem inDiff_of_gapFree {pr : PullRequestContext}
    (hgaps : ∀ cited file, resolve pr cited = some file → GapFree file) {f : Finding}
    (h : Grounded pr f) : InDiff pr f.filePath f.lineEnd := by
  obtain ⟨cited, file, top, hresolve, hpath, htop, hstart, hend⟩ := h
  refine ⟨file, hpath ▸ resolve_file hresolve, ?_⟩
  have hgap := hgaps cited file hresolve
  exact hgap.out hstart (List.max?_eq_some_iff.mp htop).1 ⟨f.lineOrder, hend⟩

/-- Whatever the models answer, a pull request without gaps gets its comments in the diff. -/
theorem runPanel_comments_inDiff [Interp] [Pydantic] (settings : Settings)
    {turns : AgentType → Turn} {pr : PullRequestContext} {agents : List AgentType}
    (hgaps : ∀ cited file, resolve pr cited = some file → GapFree file)
    (budgetExhausted isPublicRepo : Bool) :
    ∀ c ∈ comments (panelGate settings (runPanel turns pr agents) budgetExhausted isPublicRepo),
      InDiff pr c.path c.line := by
  refine comments_inDiff settings (fun f hf => inDiff_of_gapFree hgaps ?_) _ _
  obtain ⟨v, hv, _, hf⟩ := mem_okFindings.mp hf
  exact runPanel_grounded v hv f hf

def payloadPanel [Interp] [Pydantic] (pr : PullRequestContext) (ids : AgentType → ℕ → UUID)
    (payloads : AgentType → Json) : List AgentVerdict :=
  allAgents.map fun a => seat a do
    let parsed ← parsePayload a pr (ids a) (payloads a)
    pure { agent := a, findings := parsed.findings, summary := parsed.summary }

theorem payloadPanel_grounded [Interp] [Pydantic] {pr : PullRequestContext}
    {ids : AgentType → ℕ → UUID} {payloads : AgentType → Json} :
    ∀ f ∈ okFindings (payloadPanel pr ids payloads), Grounded pr f := by
  intro f hf
  obtain ⟨v, hv, _, hf⟩ := mem_okFindings.mp hf
  obtain ⟨a, _, rfl⟩ := List.mem_map.mp hv
  cases hparse : parsePayload a pr (ids a) (payloads a) with
  | error e => simp [hparse, bind, Except.bind, seat] at hf
  | ok parsed =>
    simp only [hparse, bind, Except.bind, pure, Except.pure, seat] at hf
    exact parsePayload_grounded hparse f hf

def straying (cited : String) (start stop : ℤ) : Json :=
  .obj [("file_path", .str cited), ("line_start", .int start), ("line_end", .int stop),
    ("confidence", .float (.fin 1)), ("title", .str "t"), ("rationale", .str "r")]

theorem strip_letter [Interp] (c : Char) (hascii : isAscii c = true) (hspace : asciiSpace c = false) :
    strip (.ofList [c]) = .ofList [c] := by
  have hc : Interp.isSpace c = false := by rw [Interp.isSpace_ascii c hascii, hspace]
  simp [strip, stripList, hc]

theorem ground_straying [Interp] [Pydantic] {pr : PullRequestContext} {cited : String}
    {file : DiffFile} {start stop last : ℤ} (hresolve : resolve pr cited = some file)
    (hstart : start ∈ file.addressableLines) (hlast : last ∈ file.addressableLines)
    (hle : start ≤ stop) (hlt : stop ≤ last) (agent : AgentType) (id : UUID) :
    ∃ f, groundItem agent id (straying cited start stop) pr = .ok (some (f, false)) ∧
      f.agent = agent ∧ f.category = .other ∧ f.severity = .minor ∧ f.confidence = 1 ∧
      f.categories = [] ∧ f.filePath = file.path ∧ f.lineStart = start ∧ f.lineEnd = stop := by
  cases htop : file.addressableLines.max? with
  | none =>
    rw [List.max?_eq_none_iff.mp htop] at hstart
    cases hstart
  | some top =>
    have hstop : stop ≤ top := le_trans hlt ((List.max?_eq_some_iff.mp htop).2 last hlast)
    have hanchor : anchor file.addressableLines top start stop = some (start, stop, false) := by
      rw [anchor, if_pos hstart, min_eq_left hstop, max_eq_right hle]
    have hnone : lower "None" = "none" := by
      have hascii : ∀ c ∈ "None".toList, isAscii c = true := by simp [isAscii]
      rw [lower, Interp.lower_ascii _ hascii]
      simp
    have htitle : strip (upto 200 "t") = "t" := strip_letter 't' (by decide) (by decide)
    have hrationale : strip (upto 4000 "r") = "r" := strip_letter 'r' (by decide) (by decide)
    refine ⟨{
      id := id, agent := agent, category := .other, severity := .minor, filePath := file.path
      lineStart := start, lineEnd := max stop start, title := "t", body := "", rationale := "r"
      confidence := 1, lineOrder := le_max_right _ _, confidenceRange := by norm_num }, ?_, rfl, rfl,
      rfl, rfl, rfl, rfl, rfl, max_eq_left hle⟩
    generalize hraw : [("file_path", Json.str cited), ("line_start", .int start),
      ("line_end", .int stop), ("confidence", .float (.fin 1)), ("title", .str "t"),
      ("rationale", .str "r")] = raw
    have hcited : (Json.getD raw "file_path" (.str "")).toStr = cited := by subst hraw; rfl
    have hnumbers : readNumbers raw = .ok ⟨start, stop, .fin 1⟩ := by subst hraw; rfl
    have hevidence : evidence (Json.getD raw "evidence" .null) file.path = .ok [] := by
      subst hraw; rfl
    have htexts : (Json.getD raw "title" (.str "")).toStr = "t" ∧
        (Json.getD raw "rationale" (.str "")).toStr = "r" ∧
        (Json.getD raw "body" (.str "")).toStr = "" ∧
        (Json.getD raw "category" .null).toStr = "None" ∧
        (Json.getD raw "severity" .null).toStr = "None" := by
      subst hraw; exact ⟨rfl, rfl, rfl, rfl, rfl⟩
    obtain ⟨ht, hr, hb, hc, hs⟩ := htexts
    have hcategory : coerce Category.ofValue? (Json.getD raw "category" .null) .other = .other := by
      rw [coerce, hc, hnone]
      rfl
    have hseverity : coerce Severity.ofValue? (Json.getD raw "severity" .null) .minor = .minor := by
      rw [coerce, hs, hnone]
      rfl
    have hone : Flt.clamp (.fin 1) = 1 := by simp [Flt.clamp]
    simp only [straying, hraw, groundItem, ground, hcited, hresolve, htop, hnumbers, hanchor,
      hevidence, ht, hr, hb, htitle, hrationale, hcategory, hseverity, hone]
    rfl

theorem aggregate_lone [Interp] (settings : Settings) {verdicts : List AgentVerdict} {f : Finding}
    (hlone : okFindings verdicts = [f]) (hcoll : collapsible f = false) :
    aggregate settings verdicts = ([f], overallConfidence [f] verdicts) := by
  have hmerge : merge [f] = [f] := rfl
  have hreport : collapseRepeated settings.collapseRepeatedAfter [f] = [f] := by
    simp [collapseRepeated, repeated, hcoll, clusters]
  simp only [aggregate, hlone, hmerge, hreport, List.insertionSort_cons, List.insertionSort_nil,
    List.orderedInsert_nil]

theorem panelHealth_ok {verdicts : List AgentVerdict} (hne : verdicts ≠ [])
    (hok : ∀ v ∈ verdicts, v.ok = true) : panelHealth verdicts = 1 := by
  have hlength : (verdicts.length : ℚ) ≠ 0 := by
    simpa using hne
  rw [panelHealth, if_neg hne, List.filter_eq_self.mpr hok, div_self hlength]

theorem postable_lone [Interp] {verdicts : List AgentVerdict} {f : Finding}
    (hlone : okFindings verdicts = [f]) (hok : ∀ v ∈ verdicts, v.ok = true)
    (hcategory : f.category = .other) (hseverity : f.severity = .minor)
    (hconfidence : f.confidence = 1) :
    (panelGate .default verdicts false false).postable = [f] := by
  have hcoll : collapsible f = false := by
    rw [collapsible, hcategory]
    decide
  have hcrit : criticalSecurity f = false := by
    simp [criticalSecurity, hseverity]
  have hclear : clears .default f = true := by
    rw [clears, hconfidence, hseverity]
    decide +kernel
  have hne : verdicts ≠ [] := by
    rintro rfl
    cases hlone
  have hdenied : (verdicts.any fun v => decide (v.status = .budgetDenied)) = false := by
    rw [List.any_eq_false]
    intro v hv hstatus
    have hvok := hok v hv
    simp only [AgentVerdict.ok, decide_eq_true_eq] at hvok hstatus
    rw [hvok] at hstatus
    cases hstatus
  have hoverall : overallConfidence [f] verdicts = 1 := by
    have hweight : f.severity.weight ≠ 0 := ne_of_gt f.severity.weight_pos
    have hround : pyRound 3 1 = 1 := by decide +kernel
    simp only [overallConfidence, List.map_cons, List.map_nil, List.sum_cons, List.sum_nil, add_zero,
      hconfidence, one_mul, div_self hweight, panelHealth_ok hne hok, hround]
  have hdecision : (panelGate .default verdicts false false).decision = .autoPost := by
    rw [panelGate, gate, aggregate_lone _ hlone hcoll, evaluate_decision, if_neg, if_neg, if_neg]
    · rw [hoverall]
      exact not_lt.mpr Settings.default.autoPostRange.2
    · simp [hclear]
    · rintro (h | ⟨v, hv, h⟩ | ⟨⟨g, hg, h⟩, _⟩)
      · simp [hdenied] at h
      · rw [hok v hv] at h
        cases h
      · rw [List.mem_singleton.mp hg, hcrit] at h
        cases h
  rw [panelGate] at hdecision ⊢
  rw [gate_postable, if_pos hdecision, aggregate_lone _ hlone hcoll]
  simp [hclear]

def strayPayloads (cited : String) (start stop : ℤ) : AgentType → Json
  | .correctness => .obj [("findings", .arr [straying cited start stop])]
  | _ => .obj []

theorem strayPanel [Interp] [Pydantic] {pr : PullRequestContext} {cited : String}
    {file : DiffFile} {start stop last : ℤ} (hresolve : resolve pr cited = some file)
    (hstart : start ∈ file.addressableLines) (hlast : last ∈ file.addressableLines)
    (hle : start ≤ stop) (hlt : stop ≤ last) (ids : AgentType → ℕ → UUID) :
    ∃ f, (panelGate .default (payloadPanel pr ids (strayPayloads cited start stop)) false
        false).postable = [f] ∧ f.filePath = file.path ∧ f.lineEnd = stop := by
  obtain ⟨f, hground, _, hcategory, hseverity, hconfidence, _, hpath, _, hend⟩ :=
    ground_straying hresolve hstart hlast hle hlt .correctness (ids .correctness 0)
  have hparse : parsePayload .correctness pr (ids .correctness)
      (strayPayloads cited start stop .correctness) =
        .ok { findings := [f], dropped := 0, snapped := 0, summary := upto 1000 "" } := by
    have hitems : (Json.getD [("findings", Json.arr [straying cited start stop])] "findings"
        (.arr [])).items = .ok [straying cited start stop] := rfl
    simp only [strayPayloads, parsePayload, hitems, groundAll, hground, bind, Except.bind, pure,
      Except.pure]
    rfl
  have hpanel : payloadPanel pr ids (strayPayloads cited start stop) =
      [{ agent := .security, summary := upto 1000 "" },
       { agent := .correctness, findings := [f], summary := upto 1000 "" },
       { agent := .tests, summary := upto 1000 "" },
       { agent := .docs, summary := upto 1000 "" }] := by
    simp only [payloadPanel, allAgents, List.map_cons, List.map_nil, hparse]
    rfl
  refine ⟨f, ?_, hpath, hend⟩
  rw [hpanel]
  exact postable_lone rfl (by simp [AgentVerdict.ok]) hcategory hseverity hconfidence

/-- Every comment that can reach GitHub lies in the diff exactly when no file a
citation can name has a gap between its hunks. Whatever the gaps, a panel whose
own findings end inside the diff keeps its comments there. -/
theorem comments_inDiff_iff [Interp] [Pydantic] (pr : PullRequestContext) :
    ((∀ (settings : Settings) (ids : AgentType → ℕ → UUID) (payloads : AgentType → Json)
        (isPublicRepo : Bool),
        ∀ c ∈ comments (panelGate settings (payloadPanel pr ids payloads) false isPublicRepo),
          InDiff pr c.path c.line) ↔
      ∀ cited file, resolve pr cited = some file → GapFree file) ∧
    ∀ (settings : Settings) (ids : AgentType → ℕ → UUID) (payloads : AgentType → Json)
      (isPublicRepo : Bool),
      (∀ f ∈ okFindings (payloadPanel pr ids payloads), InDiff pr f.filePath f.lineEnd) →
      ∀ c ∈ comments (panelGate settings (payloadPanel pr ids payloads) false isPublicRepo),
        InDiff pr c.path c.line := by
  refine ⟨⟨fun h cited file hresolve => ⟨?_⟩, fun hgaps => ?_⟩, ?_⟩
  · rintro a ha b hb n ⟨han, hnb⟩
    obtain ⟨f, hpostable, hpath, hend⟩ := strayPanel hresolve ha hb han hnb fun _ k => k
    have hcomment : comment f ∈ comments (panelGate .default
        (payloadPanel pr (fun _ k => k) (strayPayloads cited a n)) false false) := by
      rw [comments, hpostable]
      exact List.mem_singleton_self _
    obtain ⟨other, hother, hmem⟩ := h .default _ _ false _ hcomment
    simp only [comment, hpath, hend] at hother hmem
    rw [resolve_file hresolve] at hother
    cases hother
    exact hmem
  · intro settings ids payloads isPublicRepo
    exact comments_inDiff settings (fun f hf => inDiff_of_gapFree hgaps (payloadPanel_grounded f hf))
      false isPublicRepo
  · intro settings ids payloads isPublicRepo h
    exact comments_inDiff settings h false isPublicRepo

def gappedPr : PullRequestContext where
  repoFullName := "acme/app"
  repoGithubId := 1
  number := 7
  files := [{
    path := "app.py"
    hunks := [
      { oldStart := 1, oldLines := 3, newStart := 1, newLines := 3, addedLines := [1, 2, 3] },
      { oldStart := 20, oldLines := 3, newStart := 20, newLines := 3, addedLines := [20, 21, 22] }] }]

theorem comment_outside_diff :
    let _ := asciiInterp
    let _ := strictPydantic
    let panel := payloadPanel gappedPr (fun _ k => k) (strayPayloads "app.py" 2 10)
    (panelGate .default panel false false).decision = .autoPost ∧
    (comments (panelGate .default panel false false)).map (fun c => (c.path, c.line)) =
      [("app.py", 10)] ∧
    (gappedPr.file "app.py").map DiffFile.addressableLines = some [1, 2, 3, 20, 21, 22] := by
  decide +kernel

end PrSentinel
