import PrSentinel.Comprehensions
import PrSentinel.Models

/-!
Whether a finding is the one a label describes. A label is an object of its own: two
that read the same are still two.
-/

set_option autoImplicit false

namespace PrSentinel
open Python

structure Label where
  ref : ℕ
  filePath : String
  line : ℤ
  note : String := ""
  agent : Option String := none
  category : Option String := none
  minSeverity : String := "info"
  deriving DecidableEq, Repr

def severityNames : List String := ["info", "minor", "major", "critical"]

def Label.minSeverityRank (x : Label) : Except Exc ℕ := indexOf severityNames x.minSeverity

structure EvalCase where
  id : String
  expectedDecision : Option String := none
  expected : List Label
  mustNotFind : List Label := []
  mayFind : List Label := []
  permittedConcerns : List (String × String) := []

inductive MatchKind where
  | hit | falsePositive | allowed | unlabelled
  deriving DecidableEq, Repr

def MatchKind.value : MatchKind → String
  | .hit => "hit"
  | .falsePositive => "false_positive"
  | .allowed => "allowed"
  | .unlabelled => "unlabelled"

structure Match where
  finding : Finding
  label : Option Label
  kind : MatchKind
  labels : List Label := []
  agentCorrect : Bool := false
  categoryCorrect : Bool := false
  severitySufficient : Bool := false

def lineTolerance : ℤ := 3

def near (path : String) (lo hi : ℤ) (label : Label) : Bool :=
  if path ≠ label.filePath then false
  else if lo ≤ label.line ∧ label.line ≤ hi then true
  else min |lo - label.line| |hi - label.line| ≤ lineTolerance

/-- `e.line_end or e.line_start`, where there is a first line. -/
def Evidence.lastLine (e : Evidence) (lineStart : ℤ) : ℤ :=
  match e.lineEnd with
  | some lineEnd => if lineEnd = 0 then lineStart else lineEnd
  | none => lineStart

def Finding.cites (f : Finding) (p : String → ℤ → ℤ → Bool) : Bool :=
  f.evidence.any fun e =>
    match e.lineStart with
    | some lineStart => p e.filePath lineStart (e.lastLine lineStart)
    | none => false

def locates (f : Finding) (label : Label) : Bool :=
  near f.filePath f.lineStart f.lineEnd label || f.cites fun path lo hi => near path lo hi label

def onLine (path : String) (lo hi : ℤ) (label : Label) : Bool :=
  path = label.filePath && lo ≤ label.line && label.line ≤ hi

def covers (f : Finding) (label : Label) : Bool :=
  onLine f.filePath f.lineStart f.lineEnd label || f.cites fun path lo hi => onLine path lo hi label

def traps (f : Finding) (trap : Label) : Bool :=
  covers f trap && trap.agent.all (· = f.agent.value) && trap.category.all (· = f.category.value)

def Finding.found (f : Finding) : List String :=
  if f.categories.isEmpty then [f.category.value] else f.categories

/-- `family_of(Category(name)) in families`. -/
def inFamilies (families : List String) (name : String) : Except Exc Bool :=
  match Category.ofValue? name with
  | some category => .ok (familyOf category ∈ families)
  | none => .error .valueError

def families (category : String) : Option (List String) :=
  (split '|' category).mapM fun name => (Category.ofValue? name).map familyOf

def sameConcern (f : Finding) (label : Label) : Except Exc Bool :=
  match label.category with
  | none => .ok true
  | some category =>
    match families category with
    | none => .ok true
    | some families =>
      match anyOf (inFamilies families) f.found with
      | .error e => .error e
      | .ok true => .ok true
      | .ok false =>
        if families.all (· = "docs") && "api_contract" ∈ f.found then
          .ok ("docs" ∈ f.agent.value :: f.agreeing)
        else .ok false

/-- `_locates(finding, x) and _same_concern(finding, x)`. -/
def claims (f : Finding) (label : Label) : Except Exc Bool :=
  if locates f label then sameConcern f label else .ok false

section Classify
variable (expected forbidden allowed : List Label) (permittedConcerns : List (String × String))

/-- The trap that a finding is caught in, unless it is aimed at a defect. -/
def firingTrap (f : Finding) : Option Label :=
  if expected.any (locates f) then none else forbidden.find? (traps f)

def hit (f : Finding) (primary : Label) (covered : List Label) : Except Exc Match := do
  let rank ← primary.minSeverityRank
  pure {
    finding := f
    label := some primary
    kind := .hit
    labels := covered
    agentCorrect := primary.agent.all fun agent =>
      agent ∈ if f.agreeing.isEmpty then [f.agent.value] else f.agreeing
    categoryCorrect := primary.category.all fun category =>
      f.found.any fun name => name ∈ split '|' category
    severitySufficient := rank ≤ severityNames.idxOf f.severity.value }

def unhit (f : Finding) : Except Exc Match := do
  match firingTrap expected forbidden f with
  | some trap => pure { finding := f, label := some trap, kind := .falsePositive, labels := [trap] }
  | none =>
    match ← first (claims f) allowed with
    | some permitted =>
      pure { finding := f, label := some permitted, kind := .allowed, labels := [permitted] }
    | none =>
      if (f.agent.value, f.category.value) ∈ permittedConcerns then
        pure { finding := f, label := none, kind := .allowed }
      else pure { finding := f, label := none, kind := .unlabelled }

def judge (f : Finding) : Except Exc Match := do
  match ← select (claims f) expected with
  | primary :: rest => hit f primary (primary :: rest)
  | [] => unhit expected forbidden allowed permittedConcerns f

def classify (findings : List Finding) : Except Exc (List Match) :=
  findings.mapM (judge expected forbidden allowed permittedConcerns)

end Classify

section Match
variable {expected forbidden allowed : List Label} {permittedConcerns : List (String × String)}
  {f : Finding} {m : Match}

def credited (expected : List Label) (f : Finding) : List Label :=
  expected.filter fun x => holds (claims f x)

theorem select_claims {covered : List Label} (h : select (claims f) expected = .ok covered) :
    covered = credited expected f := (select_ok_iff.mp h).2

theorem hit_ok {primary : Label} {covered : List Label} (h : hit f primary covered = .ok m) :
    m.finding = f ∧ m.kind = .hit ∧ m.labels = covered := by
  obtain ⟨rank, -, h⟩ := ok_of_bind h
  cases h
  exact ⟨rfl, rfl, rfl⟩

theorem unhit_ok (h : unhit expected forbidden allowed permittedConcerns f = .ok m) :
    m.finding = f ∧ m.kind ≠ .hit := by
  unfold unhit at h
  split at h
  · cases h
    exact ⟨rfl, by simp⟩
  · obtain ⟨permitted, -, h⟩ := ok_of_bind h
    split at h
    · cases h
      exact ⟨rfl, by simp⟩
    · split at h
      · cases h
        exact ⟨rfl, by simp⟩
      · cases h
        exact ⟨rfl, by simp⟩

theorem judge_ok (h : judge expected forbidden allowed permittedConcerns f = .ok m) :
    m.finding = f ∧ (m.kind = .hit → m.labels = credited expected f) := by
  obtain ⟨covered, hcovered, h⟩ := ok_of_bind h
  split at h
  · obtain ⟨hfinding, -, hlabels⟩ := hit_ok h
    exact ⟨hfinding, fun _ => hlabels.trans (select_claims hcovered)⟩
  · obtain ⟨hfinding, hkind⟩ := unhit_ok h
    exact ⟨hfinding, fun hhit => absurd hhit hkind⟩

theorem classify_ok {findings : List Finding} {matched : List Match}
    (h : classify expected forbidden allowed permittedConcerns findings = .ok matched) :
    matched.map Match.finding = findings ∧
      ∀ m ∈ matched, m.kind = .hit → m.labels = credited expected m.finding := by
  have hjudged := forall₂_of_mapM h
  clear h
  induction hjudged with
  | nil => exact ⟨rfl, by simp⟩
  | cons hm _ ih =>
    obtain ⟨hfinding, hlabels⟩ := judge_ok hm
    refine ⟨by simp [hfinding, ih.1], List.forall_mem_cons.mpr ⟨?_, ih.2⟩⟩
    rwa [hfinding]

def Finding.Named (f : Finding) : Prop := ∀ name ∈ f.categories, Category.ofValue? name ≠ none

theorem Finding.Named.found (h : f.Named) : ∀ name ∈ f.found, Category.ofValue? name ≠ none := by
  intro name hname
  unfold Finding.found at hname
  split at hname
  · rw [List.mem_singleton.mp hname]
    simp
  · exact h name hname

theorem sameConcern_answers (h : f.Named) (x : Label) : Answers (sameConcern f) x := by
  have hnames (families : List String) : ∃ b, anyOf (inFamilies families) f.found = .ok b := by
    refine anyOf_answers fun name hname => ?_
    cases hvalue : Category.ofValue? name with
    | none => exact absurd hvalue (h.found name hname)
    | some category => exact ⟨_, by rw [inFamilies, hvalue]⟩
  unfold Answers sameConcern
  split
  · exact ⟨_, rfl⟩
  · split
    · exact ⟨_, rfl⟩
    · rename_i families _
      obtain ⟨b, hb⟩ := hnames families
      rw [hb]
      cases b with
      | true => exact ⟨_, rfl⟩
      | false =>
        dsimp only
        split
        · exact ⟨_, rfl⟩
        · exact ⟨_, rfl⟩

theorem claims_answers (h : f.Named) (x : Label) : Answers (claims f) x := by
  unfold Answers claims
  split
  · exact sameConcern_answers h x
  · exact ⟨_, rfl⟩

theorem unhit_answers (h : f.Named) :
    ∃ m, unhit expected forbidden allowed permittedConcerns f = .ok m := by
  obtain ⟨permitted, hfirst⟩ : ∃ found, first (claims f) allowed = .ok found :=
    first_answers fun x _ => claims_answers h x
  unfold unhit
  split
  · exact ⟨_, rfl⟩
  · rw [hfirst]
    cases permitted with
    | some x => exact ⟨_, rfl⟩
    | none =>
      by_cases hpermitted : (f.agent.value, f.category.value) ∈ permittedConcerns
      · exact ⟨_, ok_bind_iff.mpr ⟨_, rfl, if_pos hpermitted⟩⟩
      · exact ⟨_, ok_bind_iff.mpr ⟨_, rfl, if_neg hpermitted⟩⟩

theorem judge_answers (h : f.Named) (hranks : ∀ x ∈ expected, x.minSeverity ∈ severityNames) :
    ∃ m, judge expected forbidden allowed permittedConcerns f = .ok m := by
  have hselect : select (claims f) expected = .ok (credited expected f) :=
    select_ok_iff.mpr ⟨fun x _ => claims_answers h x, rfl⟩
  cases hcredited : credited expected f with
  | cons primary rest =>
    have hprimary : primary ∈ credited expected f := hcredited ▸ List.mem_cons_self
    have hrank := hranks primary (List.mem_filter.mp hprimary).1
    rw [hcredited] at hselect
    exact ⟨_, ok_bind_iff.mpr ⟨_, hselect, ok_bind_iff.mpr ⟨_, if_pos hrank, rfl⟩⟩⟩
  | nil =>
    obtain ⟨m, hm⟩ : ∃ m, unhit expected forbidden allowed permittedConcerns f = .ok m :=
      unhit_answers h
    rw [hcredited] at hselect
    exact ⟨m, ok_bind_iff.mpr ⟨_, hselect, hm⟩⟩

end Match

/-- The same finding, but for what it cites; what it reaches, the other reaches too. -/
structure Narrows (g f : Finding) : Prop where
  agent : g.agent = f.agent
  category : g.category = f.category
  severity : g.severity = f.severity
  agreeing : g.agreeing = f.agreeing
  categories : g.categories = f.categories
  reaches : ∀ x, locates g x = true → locates f x = true

section Narrows
variable {expected forbidden allowed : List Label} {permittedConcerns : List (String × String)}
  {f g : Finding} {m : Match}

theorem Narrows.found (h : Narrows g f) : g.found = f.found := by
  rw [Finding.found, Finding.found, h.categories, h.category]

theorem Narrows.sameConcern (h : Narrows g f) (x : Label) : sameConcern g x = sameConcern f x := by
  simp only [PrSentinel.sameConcern, h.found, h.agent, h.agreeing]

theorem Narrows.weaker (h : Narrows g f) : Weaker (claims g) (claims f) := by
  intro x
  unfold claims
  cases hg : locates g x with
  | true => exact .inl (by simp [h.reaches x hg, h.sameConcern x])
  | false => exact .inr (by simp)

theorem claims_true_iff {x : Label} :
    claims f x = .ok true ↔ locates f x = true ∧ sameConcern f x = .ok true := by
  unfold claims
  split
  · rename_i hx
    simp [hx]
  · rename_i hx
    simp [hx]

theorem Narrows.claims_iff {x : Label} (h : Narrows g f) (hx : claims f x = .ok true) :
    claims g x = .ok true ↔ locates g x = true := by
  rw [claims_true_iff, h.sameConcern]
  exact and_iff_left (claims_true_iff.mp hx).2

def SameMatch (m m' : Match) : Prop := m'.kind = m.kind ∧ ∀ x, x ∈ m'.labels ↔ x ∈ m.labels

theorem unhit_trapped {trap : Label} (h : firingTrap expected forbidden f = some trap) :
    unhit expected forbidden allowed permittedConcerns f =
      .ok { finding := f, label := some trap, kind := .falsePositive, labels := [trap] } := by
  simp only [unhit, h]
  rfl

def excused (permittedConcerns : List (String × String)) (f : Finding) (permitted : Option Label) :
    Match where
  finding := f
  label := permitted
  kind := if permitted.isSome || (f.agent.value, f.category.value) ∈ permittedConcerns then .allowed
    else .unlabelled
  labels := permitted.toList

theorem excused_kind (f : Finding) (permitted : Option Label) :
    (excused permittedConcerns f permitted).kind ≠ .falsePositive := by
  unfold excused
  dsimp only
  split <;> simp

theorem unhit_free_iff (h : firingTrap expected forbidden f = none) :
    unhit expected forbidden allowed permittedConcerns f = .ok m ↔
      ∃ permitted, first (claims f) allowed = .ok permitted ∧
        m = excused permittedConcerns f permitted := by
  simp only [unhit, h]
  rw [ok_bind_iff]
  refine exists_congr fun permitted => and_congr_right fun _ => ?_
  cases permitted with
  | some x => simp [excused, pure, Except.pure, eq_comm]
  | none =>
    by_cases hpermitted : (f.agent.value, f.category.value) ∈ permittedConcerns
    · simp [excused, hpermitted, pure, Except.pure, eq_comm]
    · simp [excused, hpermitted, pure, Except.pure, eq_comm]

theorem unhit_again_iff (h : Narrows g f)
    (hf : unhit expected forbidden allowed permittedConcerns f = .ok m) :
    (∃ m', unhit expected forbidden allowed permittedConcerns g = .ok m' ∧ SameMatch m m') ↔
      firingTrap expected forbidden g = firingTrap expected forbidden f ∧
      (firingTrap expected forbidden f = none →
        ∀ x, first (claims f) allowed = .ok (some x) → locates g x = true) := by
  cases htrap : firingTrap expected forbidden f with
  | some trap =>
    cases (unhit_trapped htrap).symm.trans hf
    constructor
    · rintro ⟨m', hm', hkind, hsame⟩
      refine ⟨?_, by simp⟩
      cases htrap' : firingTrap expected forbidden g with
      | some other =>
        cases (unhit_trapped htrap').symm.trans hm'
        rw [List.mem_singleton.mp ((hsame other).mp List.mem_cons_self)]
      | none =>
        obtain ⟨permitted, -, rfl⟩ := (unhit_free_iff htrap').mp hm'
        exact absurd hkind (excused_kind g permitted)
    · rintro ⟨htrap', -⟩
      exact ⟨_, unhit_trapped htrap', rfl, fun _ => Iff.rfl⟩
  | none =>
    obtain ⟨permitted, hfirst, rfl⟩ := (unhit_free_iff htrap).mp hf
    have hagain : first (claims g) allowed = .ok permitted ↔
        ∀ x, first (claims f) allowed = .ok (some x) → locates g x = true := by
      rw [h.weaker.first_iff hfirst, hfirst]
      refine forall_congr' fun x => ?_
      cases permitted with
      | none => simp
      | some y =>
        have hclaimed := (first_some hfirst).2
        simp only [Option.mem_some_iff, Except.ok.injEq, Option.some.injEq]
        refine forall_congr' fun heq => ?_
        exact h.claims_iff (heq ▸ hclaimed)
    rw [← hagain]
    constructor
    · rintro ⟨m', hm', hkind, hsame⟩
      cases htrap' : firingTrap expected forbidden g with
      | some trap =>
        cases (unhit_trapped htrap').symm.trans hm'
        exact absurd hkind.symm (excused_kind f permitted)
      | none =>
        obtain ⟨permitted', hfirst', rfl⟩ := (unhit_free_iff htrap').mp hm'
        have hpermitted : permitted' = permitted := by
          refine Option.ext fun x => ?_
          have := hsame x
          simpa [excused] using this
        exact ⟨rfl, fun _ => hpermitted ▸ hfirst'⟩
    · rintro ⟨htrap', hfirst'⟩
      refine ⟨_, (unhit_free_iff htrap').mpr ⟨permitted, hfirst' rfl, rfl⟩, ?_, fun _ => Iff.rfl⟩
      simp only [excused, h.agent, h.category]

theorem judge_again_iff (h : Narrows g f)
    (hf : judge expected forbidden allowed permittedConcerns f = .ok m) :
    (∃ m', judge expected forbidden allowed permittedConcerns g = .ok m' ∧ SameMatch m m') ↔
      (∀ x ∈ credited expected f, locates g x = true) ∧ (credited expected f = [] →
        firingTrap expected forbidden g = firingTrap expected forbidden f ∧
        (firingTrap expected forbidden f = none →
          ∀ x, first (claims f) allowed = .ok (some x) → locates g x = true)) := by
  obtain ⟨covered, hcovered, hm⟩ := ok_of_bind hf
  obtain rfl := select_claims hcovered
  have hclaimed : ∀ x ∈ credited expected f, claims f x = .ok true := fun x hx =>
    holds_iff.mp (List.mem_filter.mp hx).2
  have hagain : select (claims g) expected = .ok (credited expected f) ↔
      ∀ x ∈ credited expected f, locates g x = true := by
    rw [h.weaker.select_iff hcovered]
    exact forall₂_congr fun x hx => h.claims_iff (hclaimed x hx)
  cases hcredited : credited expected f with
  | cons primary rest =>
    rw [hcredited] at hcovered hm hclaimed hagain
    have hlabels := (hit_ok hm).2
    rw [and_iff_left (by simp), ← hagain]
    constructor
    · rintro ⟨m', hm', hkind, hsame⟩
      have hlabels' := (judge_ok hm').2 (hkind.trans hlabels.1)
      refine hagain.mpr fun x hx => ?_
      rw [← hlabels.2, ← hsame x, hlabels'] at hx
      exact (claims_true_iff.mp (holds_iff.mp (List.mem_filter.mp hx).2)).1
    · intro hselect
      obtain ⟨rank, hrank, -⟩ := ok_of_bind hm
      refine ⟨_, ok_bind_iff.mpr ⟨_, hselect, ok_bind_iff.mpr ⟨rank, hrank, rfl⟩⟩, ?_, ?_⟩
      · exact hlabels.1.symm
      · intro x
        rw [hlabels.2]
  | nil =>
    rw [hcredited] at hcovered hm hagain
    have hselect : select (claims g) expected = .ok [] := hagain.mpr (by simp)
    have hunhit : judge expected forbidden allowed permittedConcerns g =
        unhit expected forbidden allowed permittedConcerns g := by
      rw [judge, hselect]
      rfl
    rw [hunhit, unhit_again_iff h hm]
    simp

theorem unhit_label (hf : unhit expected forbidden allowed permittedConcerns f = .ok m)
    {x : Label} (hx : m.label = some x) : x ∈ m.labels := by
  cases htrap : firingTrap expected forbidden f with
  | some trap =>
    cases (unhit_trapped htrap).symm.trans hf
    cases hx
    exact List.mem_cons_self
  | none =>
    obtain ⟨permitted, -, rfl⟩ := (unhit_free_iff htrap).mp hf
    simpa [excused] using hx

theorem judge_label (hf : judge expected forbidden allowed permittedConcerns f = .ok m)
    {x : Label} (hx : m.label = some x) : x ∈ m.labels := by
  obtain ⟨covered, -, hf⟩ := ok_of_bind hf
  split at hf
  · obtain ⟨rank, -, hf⟩ := ok_of_bind hf
    cases hf
    cases hx
    exact List.mem_cons_self
  · exact unhit_label hf hx

theorem judge_labels (hf : judge expected forbidden allowed permittedConcerns f = .ok m)
    (P : Label → Prop) :
    (∀ x ∈ m.labels, P x) ↔ (∀ x ∈ credited expected f, P x) ∧ (credited expected f = [] →
      (∀ x, firingTrap expected forbidden f = some x → P x) ∧
      (firingTrap expected forbidden f = none →
        ∀ x, first (claims f) allowed = .ok (some x) → P x)) := by
  obtain ⟨covered, hcovered, hm⟩ := ok_of_bind hf
  obtain rfl := select_claims hcovered
  cases hcredited : credited expected f with
  | cons primary rest =>
    rw [hcredited] at hm
    rw [(hit_ok hm).2.2]
    simp
  | nil =>
    rw [hcredited] at hm
    cases htrap : firingTrap expected forbidden f with
    | some trap =>
      cases (unhit_trapped htrap).symm.trans hm
      simp
    | none =>
      obtain ⟨permitted, hfirst, rfl⟩ := (unhit_free_iff htrap).mp hm
      simp [excused, hfirst]

end Narrows

def missed (expected : List Label) (matched : List Match) : List Label :=
  let found := (matched.filter fun m => m.kind = .hit).flatMap fun m => m.labels.map Label.ref
  expected.filter fun label => label.ref ∉ found

end PrSentinel
