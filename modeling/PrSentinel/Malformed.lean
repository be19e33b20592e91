import PrSentinel.Anchoring

/-! What a malformed item of an answer costs: itself, unless reading it raises something nobody catches. -/

set_option autoImplicit false

namespace PrSentinel
open Python

section Interp
variable [Interp]

/-- Reading a number of the item overflows: an infinite line, or a confidence no `float` can hold. -/
def Overflowing (raw : List (String × Json)) : Prop :=
  (Json.getD raw "line_start" (.int 0)).infinite = true ∨
  ∃ start, (Json.getD raw "line_start" (.int 0)).toInt = .ok start ∧
    ((Json.getD raw "line_end" (.int start)).infinite = true ∨
    ∃ stop, (Json.getD raw "line_end" (.int start)).toInt = .ok stop ∧
      (Json.getD raw "confidence" (.float (.fin 0))).immense = true)

/-- The item is placed in the diff, and its evidence is a number, or true. -/
def Unlistable (file : DiffFile) (raw : List (String × Json)) : Prop :=
  (Json.getD raw "evidence" .null).unlistable = true ∧
  ∃ numbers, readNumbers raw = .ok numbers ∧
    ∃ line ∈ file.addressableLines, |line - numbers.start| ≤ snapWindow

/-- Reading the item raises an exception that is caught nowhere. -/
def Breaks (pr : PullRequestContext) (raw : Json) : Prop :=
  ∃ pairs file, raw = .obj pairs ∧
    resolve pr (Json.getD pairs "file_path" (.str "")).toStr = some file ∧
    file.addressableLines ≠ [] ∧ (Overflowing pairs ∨ Unlistable file pairs)

theorem readNumbers_overflow {raw : List (String × Json)} (h : Overflowing raw) :
    readNumbers raw = .error .overflowError := by
  rcases h with hstart | ⟨start, hstart, hstop | ⟨stop, hstop, hconfidence⟩⟩
  · simp only [readNumbers, Json.toInt_infinite hstart]
    rfl
  · simp only [readNumbers, hstart, bind, Except.bind, Json.toInt_infinite hstop]
  · simp only [readNumbers, hstart, hstop, bind, Except.bind, Json.toFloat_immense hconfidence]

theorem readNumbers_error {raw : List (String × Json)} {e : Exc} (h : readNumbers raw = .error e) :
    e = .typeError ∨ e = .valueError ∨ e = .overflowError ∧ Overflowing raw := by
  simp only [readNumbers, bind, Except.bind] at h
  split at h
  · rename_i hstart
    cases h
    exact (Json.toInt_error hstart).imp_right (.imp_right fun h => ⟨h.1, .inl h.2⟩)
  · rename_i start hstart
    split at h
    · rename_i hstop
      cases h
      exact (Json.toInt_error hstop).imp_right
        (.imp_right fun h => ⟨h.1, .inr ⟨start, hstart, .inl h.2⟩⟩)
    · rename_i stop hstop
      split at h
      · rename_i hconfidence
        cases h
        exact (Json.toFloat_error hconfidence).imp_right
          (.imp_right fun h => ⟨h.1, .inr ⟨start, hstart, .inr ⟨stop, hstop, h.2⟩⟩⟩)
      · cases h

theorem overflowing_iff {pairs : List (String × Json)} {e : Exc}
    (h : readNumbers pairs = .error e) : Overflowing pairs ↔ e = .overflowError := by
  constructor
  · intro hover
    rw [readNumbers_overflow hover] at h
    cases h
    rfl
  · rintro rfl
    rcases readNumbers_error h with heq | heq | ⟨-, hover⟩
    · cases heq
    · cases heq
    · exact hover

omit [Interp] in
theorem nearest_le {start near : ℤ} {lines : List ℤ} (h : nearest start lines = some near) :
    ∀ n ∈ lines, |near - start| ≤ |n - start| := by
  cases lines with
  | nil => cases h
  | cons m ms =>
    simp only [nearest, Option.some.injEq] at h
    have hfold (ms : List ℤ) (best : ℤ) : ∀ n ∈ best :: ms,
        |ms.foldl (fun best m => if |m - start| < |best - start| then m else best) best - start| ≤
          |n - start| := by
      induction ms generalizing best with
      | nil => simp
      | cons m ms ih =>
        rw [List.foldl_cons]
        intro n hn
        have hbest := ih (if |m - start| < |best - start| then m else best)
        rcases List.mem_cons.mp hn with rfl | hn
        · refine (hbest _ List.mem_cons_self).trans ?_
          split <;> omega
        · rcases List.mem_cons.mp hn with rfl | hn
          · refine (hbest _ List.mem_cons_self).trans ?_
            split <;> omega
          · exact hbest n (List.mem_cons_of_mem _ hn)
    rw [← h]
    exact hfold ms m

theorem anchor_eq_none_iff (addressable : List ℤ) (top start stop : ℤ) :
    anchor addressable top start stop = none ↔
      ¬ ∃ line ∈ addressable, |line - start| ≤ snapWindow := by
  unfold anchor
  split
  · rename_i hstart
    refine iff_of_false (by simp) (fun h => h ⟨start, hstart, ?_⟩)
    simp [snapWindow]
  · split
    · rename_i hnone
      refine iff_of_true rfl ?_
      rintro ⟨line, hline, -⟩
      cases horder : Interp.setOrder addressable with
      | nil =>
        have hmem := (Interp.mem_setOrder addressable line).mpr hline
        simp [horder] at hmem
      | cons n ns => simp [nearest, horder] at hnone
    · rename_i near hnear
      have hmem := (Interp.mem_setOrder addressable near).mp (nearest_mem hnear)
      split
      · rename_i hfar
        refine iff_of_true rfl ?_
        rintro ⟨line, hline, hclose⟩
        have hle := nearest_le hnear line ((Interp.mem_setOrder addressable line).mpr hline)
        omega
      · rename_i hclose
        exact iff_of_false (by simp) (fun h => h ⟨near, hmem, not_lt.mp hclose⟩)

variable [Pydantic]

theorem evidence_error {raw : Json} {path : String} {e : Exc} :
    evidence raw path = .error e ↔ e = .typeError ∧ raw.unlistable = true := by
  rw [← Json.items_error]
  cases hitems : raw.items <;> simp [evidence, hitems, bind, Except.bind, pure, Except.pure]

theorem groundItem_error_iff (agent : AgentType) (id : UUID) (raw : Json)
    (pr : PullRequestContext) :
    (∃ e, groundItem agent id raw pr = .error e) ↔ Breaks pr raw := by
  cases raw with
  | obj pairs =>
    have hbreaks : Breaks pr (.obj pairs) ↔ ∃ file,
        resolve pr (Json.getD pairs "file_path" (.str "")).toStr = some file ∧
        file.addressableLines ≠ [] ∧ (Overflowing pairs ∨ Unlistable file pairs) := by
      simp [Breaks]
    rw [hbreaks]
    simp only [groundItem, ground]
    cases hfile : resolve pr (Json.getD pairs "file_path" (.str "")).toStr with
    | none => simp
    | some file =>
      dsimp only
      cases htop : file.addressableLines.max? with
      | none => simp [List.max?_eq_none_iff.mp htop]
      | some top =>
        have hlines : file.addressableLines ≠ [] := by
          intro hnil
          simp [hnil] at htop
        simp only [Option.some.injEq, exists_eq_left', hlines, ne_eq, not_false_eq_true, true_and]
        cases hnumbers : readNumbers pairs with
        | error e =>
          have hlistable : ¬ Unlistable file pairs := by
            rintro ⟨-, numbers, hok, -⟩
            rw [hnumbers] at hok
            cases hok
          rw [or_iff_left hlistable, overflowing_iff hnumbers]
          rcases readNumbers_error hnumbers with rfl | rfl | ⟨rfl, -⟩
          · simp
          · simp [Exc.isValueError]
          · simp [Exc.isValueError]
        | ok numbers =>
          have hfits : ¬ Overflowing pairs := by
            intro hover
            rw [readNumbers_overflow hover] at hnumbers
            cases hnumbers
          rw [or_iff_right hfits]
          dsimp only
          cases hanchor : anchor file.addressableLines top numbers.start numbers.stop with
          | none =>
            have hfar := (anchor_eq_none_iff _ _ _ _).mp hanchor
            refine iff_of_false (by simp) ?_
            rintro ⟨-, numbers', hok, hclose⟩
            cases hnumbers.symm.trans hok
            exact hfar hclose
          | some place =>
            have hclose : ∃ line ∈ file.addressableLines, |line - numbers.start| ≤ snapWindow := by
              by_contra hfar
              simp [(anchor_eq_none_iff _ top _ numbers.stop).mpr hfar] at hanchor
            have hunlistable : Unlistable file pairs ↔
                (Json.getD pairs "evidence" .null).unlistable = true :=
              and_iff_left ⟨numbers, hnumbers, hclose⟩
            rw [hunlistable]
            cases hevidence : evidence (Json.getD pairs "evidence" .null) file.path with
            | error e =>
              refine iff_of_true ⟨e, ?_⟩ (evidence_error.mp hevidence).2
              simp [bind, Except.bind]
            | ok items =>
              refine iff_of_false ?_ ?_
              · simp only [bind, Except.bind]
                split <;> simp [pure, Except.pure]
              · intro hunl
                rw [evidence_error.mpr ⟨rfl, hunl⟩] at hevidence
                cases hevidence
  | _ => simp [groundItem, Breaks]

def accepted : Except Exc (Option (Finding × Bool)) → Option Finding
  | .ok (some (finding, _)) => some finding
  | _ => none

/-- The findings are what the items become one by one, and every other item is counted. -/
structure ItemByItem (agent : AgentType) (pr : PullRequestContext) (ids : ℕ → UUID)
    (raws : List Json) (parsed : Parsed) : Prop where
  findings : parsed.findings =
    (raws.mapIdx fun k raw => groundItem agent (ids k) raw pr).filterMap accepted
  dropped : parsed.findings.length + parsed.dropped = raws.length

theorem groundAll_itemByItem {agent : AgentType} {pr : PullRequestContext} {ids : ℕ → UUID}
    {raws : List Json} {parsed : Parsed} (h : groundAll agent pr ids raws = .ok parsed) :
    ItemByItem agent pr ids raws parsed := by
  induction raws generalizing ids parsed with
  | nil =>
    cases h
    exact ⟨rfl, rfl⟩
  | cons raw raws ih =>
    obtain ⟨grounded, hgrounded, h⟩ := ok_of_bind h
    obtain ⟨rest, hrest, h⟩ := ok_of_bind h
    obtain ⟨hfindings, hdropped⟩ := ih hrest
    cases grounded with
    | none =>
      cases h
      constructor
      · rw [List.mapIdx_cons, hgrounded, List.filterMap_cons_none rfl]
        exact hfindings
      · simp only [List.length_cons, ← hdropped]
        omega
    | some pair =>
      cases h
      have haccepted : accepted (.ok (some pair)) = some pair.1 := rfl
      constructor
      · rw [List.mapIdx_cons, hgrounded, List.filterMap_cons_some haccepted, ← hfindings]
      · simp only [List.length_cons, ← hdropped]
        omega

theorem groundAll_returns_iff (agent : AgentType) (pr : PullRequestContext) (ids : ℕ → UUID)
    (raws : List Json) : (∃ parsed, groundAll agent pr ids raws = .ok parsed) ↔
      ∀ raw ∈ raws, ¬ Breaks pr raw := by
  induction raws generalizing ids with
  | nil => simp [groundAll, pure, Except.pure]
  | cons raw raws ih =>
    rw [List.forall_mem_cons, ← ih fun k => ids (k + 1), ← groundItem_error_iff agent (ids 0)]
    simp only [groundAll, bind, Except.bind]
    cases hitem : groundItem agent (ids 0) raw pr with
    | error e => simp
    | ok grounded =>
      cases hrest : groundAll agent pr (fun k => ids (k + 1)) raws with
      | error e => simp
      | ok rest => cases grounded <;> simp [pure, Except.pure]

theorem parse_loaded (agent : AgentType) (pr : PullRequestContext) (ids : ℕ → UUID)
    {text : List Char} {pairs : List (String × Json)} {raws : List Json}
    (hload : loads text = .ok (.obj pairs)) (hraws : Json.lookup "findings" pairs = some (.arr raws)) :
    parse agent pr ids text = groundAll agent pr ids raws >>= fun parsed =>
      pure { parsed with summary := upto 1000 (Json.getD pairs "summary" (.str "")).toStr } := by
  have hitems : (Json.getD pairs "findings" (.arr [])).items = .ok raws := by
    cases raws <;> simp [Json.getD, hraws, Json.items, Json.truthy, Json.iterate]
  simp only [parse, readPayload, hload, bind, Except.bind, parsePayload, hitems]

/-- An answer costs nobody more than the items that are dropped exactly if none of its
items breaks. -/
theorem item_by_item_iff (agent : AgentType) (pr : PullRequestContext) (ids : ℕ → UUID)
    {text : List Char} {pairs : List (String × Json)} {raws : List Json}
    (hload : loads text = .ok (.obj pairs)) (hraws : Json.lookup "findings" pairs = some (.arr raws)) :
    (∃ parsed, parse agent pr ids text = .ok parsed ∧ ItemByItem agent pr ids raws parsed) ↔
      ∀ raw ∈ raws, ¬ Breaks pr raw := by
  rw [parse_loaded agent pr ids hload hraws, ← groundAll_returns_iff agent pr ids raws]
  constructor
  · rintro ⟨parsed, hok, -⟩
    obtain ⟨inner, hinner, -⟩ := ok_of_bind hok
    exact ⟨inner, hinner⟩
  · rintro ⟨parsed, hok⟩
    obtain ⟨hfindings, hdropped⟩ := groundAll_itemByItem hok
    rw [hok]
    exact ⟨_, rfl, hfindings, hdropped⟩

end Interp

def appPr : PullRequestContext where
  repoFullName := "acme/app"
  repoGithubId := 1
  number := 7
  files := [{
    path := "app.py"
    hunks := [{ oldStart := 1, oldLines := 0, newStart := 1, newLines := 1, addedLines := [1] }] }]

def goodItem : Json :=
  .obj [("file_path", .str "app.py"), ("line_start", .int 1), ("title", .str "t"),
    ("rationale", .str "r")]

def unreadItem : Json := .obj [("file_path", .str "app.py"), ("line_start", .str "one")]

def overflowItem : Json := .obj [("file_path", .str "app.py"), ("line_start", .float (.inf false))]

def countedItem : Json :=
  .obj [("file_path", .str "app.py"), ("line_start", .int 1), ("evidence", .int 1)]

def answerText (item : List String) : List Char :=
  ["\x7b\"findings\": [\x7b", "\"file_path\": ", "\"app.py\", ", "\"line_start\": 1, ",
    "\"title\": \"t\", ", "\"rationale\": \"r\"\x7d, ", "\x7b\"file_path\": ", "\"app.py\", "].flatMap
      String.toList ++ item.flatMap String.toList ++ "\x7d]\x7d".toList

def overflowText : List Char := answerText ["\"line_start\": ", "Infinity"]

def countedText : List Char := answerText ["\"line_start\": 1, ", "\"evidence\": 1"]

def unreadText : List Char := answerText ["\"line_start\": ", "\"one\""]

/-- The good item is lost with the other one, and so is the verdict. -/
theorem item_costs_all :
    let _ := asciiInterp
    let _ := strictPydantic
    (loads overflowText = .ok (.obj [("findings", .arr [goodItem, overflowItem])]) ∧
      ∀ parsed, parse .security appPr id overflowText ≠ .ok parsed) ∧
    (loads countedText = .ok (.obj [("findings", .arr [goodItem, countedItem])]) ∧
      ∀ parsed, parse .security appPr id countedText ≠ .ok parsed) := by
  intro _ _
  have hraises {text : List Char} {item : Json}
      (hload : loads text = .ok (.obj [("findings", .arr [goodItem, item])]))
      (hitem : (groundAll .security appPr id [goodItem, item]).toOption.isSome = false) :
      ∀ parsed, parse .security appPr id text ≠ .ok parsed := by
    intro parsed heq
    rw [parse_loaded .security appPr id hload rfl] at heq
    obtain ⟨inner, hinner, -⟩ := ok_of_bind heq
    simp [hinner, Except.toOption] at hitem
  have hoverflow : loads overflowText = .ok (.obj [("findings", .arr [goodItem, overflowItem])]) :=
    loads_of_reads (by decide +kernel)
  have hcounted : loads countedText = .ok (.obj [("findings", .arr [goodItem, countedItem])]) :=
    loads_of_reads (by decide +kernel)
  exact ⟨⟨hoverflow, hraises hoverflow (by decide +kernel)⟩,
    hcounted, hraises hcounted (by decide +kernel)⟩

theorem unread_item_dropped :
    let _ := asciiInterp
    let _ := strictPydantic
    ∃ parsed, parse .security appPr id unreadText = .ok parsed ∧
      ItemByItem .security appPr id [goodItem, unreadItem] parsed := by
  intro _ _
  have hload : loads unreadText = .ok (.obj [("findings", .arr [goodItem, unreadItem])]) :=
    @loads_of_reads asciiInterp _ _ (by decide +kernel)
  refine (item_by_item_iff .security appPr id hload rfl).mpr ?_
  have hreturns (raw : Json)
      (h : (@groundItem asciiInterp strictPydantic .security 0 raw appPr).toOption.isSome = true) :
      ¬ @Breaks asciiInterp appPr raw := by
    rw [← @groundItem_error_iff asciiInterp strictPydantic .security 0]
    rintro ⟨e, he⟩
    simp [he, Except.toOption] at h
  simp only [List.mem_cons, List.not_mem_nil, or_false, forall_eq_or_imp, forall_eq]
  exact ⟨hreturns _ (by decide +kernel), hreturns _ (by decide +kernel)⟩

end PrSentinel
