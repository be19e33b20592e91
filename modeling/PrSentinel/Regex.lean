import Mathlib.Data.List.Basic
import Mathlib.Data.List.Infix

/-!
Patterns as a backtracking matcher tries them: every way to match, the preferred one
first.
-/

set_option autoImplicit false

namespace Regex

/-- A place in a text: what lies behind, nearest character first, and what lies ahead. -/
structure Cursor where
  passed : List Char
  rest : List Char
  captured : Option (List Char) := none

def Cursor.text (s : Cursor) : List Char := s.passed.reverse ++ s.rest

inductive Pattern where
  | one (p : Char → Bool)
  | many (p : Char → Bool) (greedy : Bool)
  | seq (a b : Pattern)
  | alt (a b : Pattern)
  | skip
  | boundary (inWord : Char → Bool)
  | capture (a : Pattern)

namespace Pattern

/-- The places reached by passing characters of one kind, the nearest first. -/
def reach (p : Char → Bool) (captured : Option (List Char)) : List Char → List Char → List Cursor
  | passed, [] => [⟨passed, [], captured⟩]
  | passed, c :: rest =>
    ⟨passed, c :: rest, captured⟩ ::
      if p c then reach p captured (c :: passed) rest else []

def run : Pattern → Cursor → List Cursor
  | one p, s =>
    match s.rest with
    | c :: rest => if p c then [{ s with passed := c :: s.passed, rest }] else []
    | [] => []
  | many p greedy, s =>
    let places := reach p s.captured s.passed s.rest
    if greedy then places.reverse else places
  | seq a b, s => (a.run s).flatMap b.run
  | alt a b, s => a.run s ++ b.run s
  | skip, s => [s]
  | boundary inWord, s =>
    if (s.passed.head?.map inWord).getD false = (s.rest.head?.map inWord).getD false then []
    else [s]
  | capture a, s =>
    (a.run s).map fun t =>
      { t with captured := some (t.passed.take (t.passed.length - s.passed.length)).reverse }

def lit (text : String) : Pattern :=
  text.toList.foldr (fun c rest => seq (one fun d => d = c) rest) skip

def oneOf : List String → Pattern
  | [] => skip
  | [text] => lit text
  | text :: texts => alt (lit text) (oneOf texts)

def opt (a : Pattern) : Pattern := alt a skip

def more (p : Char → Bool) : Pattern := seq (one p) (many p true)

def captureOf (a : Pattern) (line : List Char) : Option (List Char) :=
  (a.run ⟨[], line, none⟩).head?.bind Cursor.captured

/-- A match stays in its text, and its group holds a part of it. -/
def Stays (s t : Cursor) : Prop :=
  t.text = s.text ∧ ∀ group, t.captured = some group → s.captured = some group ∨ group <:+: s.text

theorem Stays.refl (s : Cursor) : Stays s s := ⟨rfl, fun _ h => .inl h⟩

theorem Stays.trans {s t u : Cursor} (h : Stays s t) (h' : Stays t u) : Stays s u := by
  refine ⟨h'.1.trans h.1, fun group hu => ?_⟩
  rcases h'.2 group hu with ht | ht
  · exact h.2 group ht
  · exact .inr (h.1 ▸ ht)

theorem stays_of_reach {p : Char → Bool} {captured : Option (List Char)} {passed rest : List Char}
    {t : Cursor} (h : t ∈ reach p captured passed rest) : Stays ⟨passed, rest, captured⟩ t := by
  induction rest generalizing passed with
  | nil =>
    rw [List.mem_singleton.mp h]
    exact .refl _
  | cons c rest ih =>
    rw [reach, List.mem_cons] at h
    rcases h with rfl | h
    · exact .refl _
    · split at h
      · have hnext : Stays ⟨passed, c :: rest, captured⟩ ⟨c :: passed, rest, captured⟩ :=
          ⟨by simp [Cursor.text], fun _ h => .inl h⟩
        exact hnext.trans (ih h)
      · cases h

theorem stays_of_run {a : Pattern} {s t : Cursor} (h : t ∈ a.run s) : Stays s t := by
  induction a generalizing s t with
  | one p =>
    unfold run at h
    split at h
    · rename_i c rest hrest
      split at h
      · rw [List.mem_singleton.mp h]
        exact ⟨by simp [Cursor.text, hrest], fun _ h => .inl h⟩
      · cases h
    · cases h
  | many p greedy =>
    have hreach : t ∈ reach p s.captured s.passed s.rest := by
      cases greedy
      · exact h
      · exact List.mem_reverse.mp h
    exact stays_of_reach hreach
  | seq a b iha ihb =>
    obtain ⟨u, hu, ht⟩ := List.mem_flatMap.mp h
    exact (iha hu).trans (ihb ht)
  | alt a b iha ihb =>
    rcases List.mem_append.mp h with h | h
    · exact iha h
    · exact ihb h
  | skip =>
    rw [List.mem_singleton.mp h]
    exact .refl s
  | boundary inWord =>
    unfold run at h
    split at h
    · cases h
    · rw [List.mem_singleton.mp h]
      exact .refl s
  | capture a ih =>
    obtain ⟨u, hu, rfl⟩ := List.mem_map.mp h
    refine ⟨(ih hu).1, fun group hgroup => .inr ?_⟩
    rw [← (ih hu).1, ← Option.some.inj hgroup]
    have htake := List.take_append_drop (u.passed.length - s.passed.length) u.passed
    refine ⟨(u.passed.drop (u.passed.length - s.passed.length)).reverse, u.rest, ?_⟩
    rw [← List.reverse_append, htake]
    rfl

theorem captureOf_infix {a : Pattern} {line group : List Char} (h : a.captureOf line = some group) :
    group <:+: line := by
  obtain ⟨t, ht, hgroup⟩ := Option.bind_eq_some_iff.mp h
  rcases (stays_of_run (List.mem_of_mem_head? ht)).2 group hgroup with h | h
  · cases h
  · exact h

end Pattern

end Regex
