import PrSentinel.Ingress
import PrSentinel.PythonJson

set_option autoImplicit false

namespace PrSentinel
open Python

/-- What the standard library makes of bytes: their HMAC-SHA256 in hex, and their text. -/
class Codecs where
  hexdigest : String → List UInt8 → String
  hexdigest_ascii : ∀ secret body, ∀ c ∈ (hexdigest secret body).toList, isAscii c = true
  decode : List UInt8 → Except Exc (List Sym)

structure WebhookRequest where
  body : List UInt8
  event : Option String := none
  delivery : Option String := none
  signature : Option String := none

structure JSONResponse where
  content : List (String × Json)
  status : ℕ

inductive Uncaught where
  | exc (e : Exc)
  | dataError

inductive Operation where
  | json | seenDelivery | recordDelivery | enqueueReview
  deriving DecidableEq, Repr

structure Server where
  ingress : Ingress := {}
  operations : List Operation := []

def Server.did (s : Server) (o : Operation) (ingress : Ingress) : Server :=
  ⟨ingress, o :: s.operations⟩

section Signature
variable [Codecs]

def computeSignature (secret : String) (body : List UInt8) : String :=
  "sha256=" ++ Codecs.hexdigest secret body

def compareDigest (a b : String) : Except Exc Bool :=
  if a.toList.all isAscii && b.toList.all isAscii then .ok (a = b) else .error .typeError

def verifySignature (secret : String) (body : List UInt8) (header : Option String) :
    Except Exc Bool :=
  match header with
  | none => .ok false
  | some header =>
    if header = "" ∨ secret = "" then .ok false
    else if !startswith header "sha256=" then .ok false
    else compareDigest (computeSignature secret body) header

theorem computeSignature_ascii (secret : String) (body : List UInt8) :
    (computeSignature secret body).toList.all isAscii = true := by
  have hdigest := Codecs.hexdigest_ascii secret body
  have hscheme : "sha256=".toList.all isAscii = true := by decide
  rw [computeSignature, String.toList_append, List.all_append, hscheme, Bool.true_and]
  exact List.all_eq_true.mpr hdigest

theorem compareDigest_signature (secret : String) (body : List UInt8) (header : String) :
    compareDigest (computeSignature secret body) header =
      if header.toList.all isAscii then .ok (computeSignature secret body = header)
      else .error .typeError := by
  rw [compareDigest, computeSignature_ascii, Bool.true_and]

theorem startswith_computeSignature (secret : String) (body : List UInt8) :
    startswith (computeSignature secret body) "sha256=" = true := by
  rw [startswith, computeSignature, String.toList_append, List.isPrefixOf_iff_prefix]
  exact List.prefix_append _ _

omit [Codecs] in
theorem startswith_ne_empty {header : String} (h : startswith header "sha256=" = true) :
    header ≠ "" := by
  rintro rfl
  revert h
  decide

theorem verifySignature_true_iff (secret : String) (body : List UInt8) (header : Option String) :
    verifySignature secret body header = .ok true ↔
      secret ≠ "" ∧ header = some (computeSignature secret body) := by
  cases header with
  | none => simp [verifySignature]
  | some header =>
    simp only [verifySignature, Option.some.injEq]
    constructor
    · intro h
      split at h
      · cases h
      · rename_i hempty
        split at h
        · cases h
        · rw [compareDigest_signature] at h
          split at h
          · simp only [Except.ok.injEq, decide_eq_true_eq] at h
            exact ⟨fun hsecret => hempty (.inr hsecret), h.symm⟩
          · cases h
    · rintro ⟨hsecret, rfl⟩
      have hstarts := startswith_computeSignature secret body
      rw [if_neg (by simp [hsecret, startswith_ne_empty hstarts]), if_neg (by simp [hstarts]),
        compareDigest_signature, if_pos (computeSignature_ascii secret body)]
      simp

/-- The comparison is only reached by a header of the right scheme, and fails on one
that is not ASCII. -/
theorem verifySignature_error_iff (secret : String) (body : List UInt8) (header : Option String) :
    (∃ e, verifySignature secret body header = .error e) ↔
      secret ≠ "" ∧ ∃ h, header = some h ∧ startswith h "sha256=" = true ∧
        h.toList.all isAscii = false := by
  cases header with
  | none => simp [verifySignature]
  | some header =>
    simp only [verifySignature, Option.some.injEq, exists_eq_left']
    constructor
    · rintro ⟨e, h⟩
      split at h
      · cases h
      · rename_i hempty
        split at h
        · cases h
        · rename_i hstarts
          rw [compareDigest_signature] at h
          split at h
          · cases h
          · rename_i hascii
            exact ⟨fun hsecret => hempty (.inr hsecret), by simpa using hstarts, by simpa using hascii⟩
    · rintro ⟨hsecret, hstarts, hascii⟩
      rw [if_neg (by simp [hsecret, startswith_ne_empty hstarts]), if_neg (by simp [hstarts]),
        compareDigest_signature, if_neg (by simp [hascii])]
      exact ⟨_, rfl⟩

end Signature

def reviewableActions : List String := ["opened", "synchronize", "reopened", "ready_for_review"]

def reviewable : Json → Except Exc Bool
  | .str action => .ok (action ∈ reviewableActions)
  | x => if x.hashable then .ok false else .error .typeError

theorem reviewable_error_iff {x : Json} {e : Exc} :
    reviewable x = .error e ↔ e = .typeError ∧ x.hashable = false := by
  cases x <;> simp [reviewable, Json.hashable, eq_comm]

theorem reviewable_true {x : Json} (h : reviewable x = .ok true) :
    ∃ name ∈ reviewableActions, x = .str name := by
  cases x with
  | str name => exact ⟨name, by simpa [reviewable] using h, rfl⟩
  | _ => simp [reviewable, Json.hashable] at h

theorem reviewable_false {x : Json} (h : reviewable x = .ok false) :
    x.hashable = true ∧ ∀ name ∈ reviewableActions, x ≠ .str name := by
  cases x with
  | str name =>
    refine ⟨rfl, ?_⟩
    rintro other hother heq
    cases heq
    simp [reviewable, hother] at h
  | _ => simp_all [reviewable, Json.hashable]

def isUnusable (e : Exc) : Bool := e = .keyError || e = .typeError || e.isValueError

def Escapes {α : Type} (x : Except Exc α) : Prop := ∃ e, x = .error e ∧ isUnusable e = false

theorem escapes_bind {α β : Type} {x : Except Exc α} {f : α → Except Exc β} :
    Escapes (x >>= f) ↔ Escapes x ∨ ∃ a, x = .ok a ∧ Escapes (f a) := by
  simp only [Escapes, error_bind_iff]
  constructor
  · rintro ⟨e, hx | ⟨a, ha, hf⟩, he⟩
    · exact .inl ⟨e, hx, he⟩
    · exact .inr ⟨a, ha, e, hf, he⟩
  · rintro (⟨e, hx, he⟩ | ⟨a, ha, e, hf, he⟩)
    · exact ⟨e, .inl hx, he⟩
    · exact ⟨e, .inr ⟨a, ha, hf⟩, he⟩

theorem escapes_pure {α : Type} (a : α) : ¬ Escapes (pure a : Except Exc α) := by
  rintro ⟨e, h, -⟩
  cases h

theorem escapes_item (x : Json) (key : String) : ¬ Escapes (x.item key) := by
  rintro ⟨e, h, he⟩
  unfold Json.item at h
  split at h
  · split at h
    · cases h
    · cases h
      cases he
  · cases h
    cases he

theorem escapes_text (x : Json) : ¬ Escapes x.text := by
  rintro ⟨e, h, he⟩
  unfold Json.text at h
  split at h
  · cases h
  · cases h
  · cases h
    cases he

theorem escapes_get {x default : Json} {key : String} :
    Escapes (x.get key default) ↔ ∀ pairs, x ≠ .obj pairs := by
  cases x with
  | obj pairs => simp [Escapes, Json.get]
  | _ => simp [Escapes, Json.get, isUnusable, Exc.isValueError]

theorem item_ne_ok {x y : Json} {key : String} (h : ∀ pairs, x ≠ .obj pairs) :
    x.item key ≠ .ok y := by
  cases x with
  | obj pairs => exact absurd rfl (h pairs)
  | _ => simp [Json.item]

theorem get_of_item {x y : Json} {key : String} (h : x.item key = .ok y) (other : String)
    (default : Json) : ∃ z, x.get other default = .ok z := by
  cases x with
  | obj pairs => exact ⟨_, rfl⟩
  | _ => cases h

theorem otherwise_ne_obj {x : Json} :
    (∀ pairs, x.otherwise (.obj []) ≠ .obj pairs) ↔ x.truthy = true ∧ ∀ pairs, x ≠ .obj pairs := by
  by_cases h : x.truthy = true
  · simp [Json.otherwise, h]
  · simp [Json.otherwise, h]

section Interp
variable [Interp]

/-- The job, and whether UTF-8 can write the repository's name in it. -/
structure BuiltJob where
  job : WebhookJob
  encodable : Bool

/-- `_build_job`: every argument is evaluated before the model checks any. -/
def buildJob (delivery event action : String) (payload : List (String × Json)) :
    Except Exc BuiltJob := do
  let pr ← (Json.obj payload).item "pull_request"
  let repo ← (Json.obj payload).item "repository"
  let fullName ← repo.item "full_name"
  let id ← repo.item "id"
  let githubId ← id.toInt
  let isPrivate ← repo.get "private" (.bool true)
  let number ← pr.item "number"
  let prNumber ← number.toInt
  let head ← pr.item "head"
  let headSha ← head.item "sha"
  let base ← pr.item "base"
  let baseSha ← base.item "sha"
  let title ← pr.get "title" .null
  let user ← pr.get "user" .null
  let login ← (user.otherwise (.obj [])).get "login" .null
  let repoFullName ← fullName.text
  let headSha ← headSha.text
  let baseSha ← baseSha.text
  let title ← (title.otherwise (.str "")).text
  let author ← (login.otherwise (.str "")).text
  pure {
    encodable := fullName.encodable
    job := {
      deliveryId := delivery
      event := if event = "" then "pull_request" else event
      repoGithubId := githubId
      isPrivate := isPrivate.truthy
      action, repoFullName, prNumber, headSha, baseSha, title, author } }

theorem escapes_toInt {x : Json} : Escapes x.toInt ↔ x.infinite = true := by
  constructor
  · rintro ⟨e, h, he⟩
    rcases Json.toInt_error h with rfl | rfl | ⟨-, hinfinite⟩
    · cases he
    · cases he
    · exact hinfinite
  · intro h
    exact ⟨_, Json.toInt_infinite h, rfl⟩

/-- The job cannot be built, and nobody catches why: a number is infinite, or the
author is something that has no `get`, and nothing before it is amiss. -/
def JobBreaks (payload : List (String × Json)) : Prop :=
  ∃ pr repo name id, (Json.obj payload).item "pull_request" = .ok pr ∧
    (Json.obj payload).item "repository" = .ok repo ∧ repo.item "full_name" = .ok name ∧
    repo.item "id" = .ok id ∧ (id.infinite = true ∨
    ∃ n number, id.toInt = .ok n ∧ pr.item "number" = .ok number ∧ (number.infinite = true ∨
    ∃ m head headSha base baseSha user, number.toInt = .ok m ∧
      pr.item "head" = .ok head ∧ head.item "sha" = .ok headSha ∧
      pr.item "base" = .ok base ∧ base.item "sha" = .ok baseSha ∧
      pr.get "user" .null = .ok user ∧ user.truthy = true ∧ ∀ pairs, user ≠ .obj pairs))

theorem escapes_buildJob (delivery event action : String) (payload : List (String × Json)) :
    Escapes (buildJob delivery event action payload) ↔ JobBreaks payload := by
  simp only [buildJob, JobBreaks, escapes_bind, escapes_item, escapes_text, escapes_toInt,
    escapes_pure, escapes_get, otherwise_ne_obj, false_or, and_false, exists_false, or_false]
  constructor
  · rintro ⟨pr, hpr, repo, hrepo, name, hname, id, hid, h⟩
    refine ⟨pr, repo, name, id, hpr, hrepo, hname, hid, h.imp_right ?_⟩
    rintro ⟨n, hn, hno | ⟨_, _, number, hnumber, h⟩⟩
    · exact absurd hname (item_ne_ok hno)
    refine ⟨n, number, hn, hnumber, h.imp_right ?_⟩
    rintro ⟨m, hm, head, hhead, headSha, hheadSha, base, hbase, baseSha, hbaseSha, h⟩
    refine ⟨m, head, headSha, base, baseSha, ?_⟩
    rcases h with hno | ⟨_, _, hno | ⟨user, huser, h⟩⟩
    · exact absurd hnumber (item_ne_ok hno)
    · exact absurd hnumber (item_ne_ok hno)
    · exact ⟨user, hm, hhead, hheadSha, hbase, hbaseSha, huser, h⟩
  · rintro ⟨pr, repo, name, id, hpr, hrepo, hname, hid, h⟩
    refine ⟨pr, hpr, repo, hrepo, name, hname, id, hid, h.imp_right ?_⟩
    rintro ⟨n, number, hn, hnumber, h⟩
    obtain ⟨isPrivate, hprivate⟩ := get_of_item hname "private" (.bool true)
    refine ⟨n, hn, .inr ⟨isPrivate, hprivate, number, hnumber, h.imp_right ?_⟩⟩
    rintro ⟨m, head, headSha, base, baseSha, user, hm, hhead, hheadSha, hbase, hbaseSha, huser, h⟩
    obtain ⟨title, htitle⟩ := get_of_item hnumber "title" .null
    exact ⟨m, hm, head, hhead, headSha, hheadSha, base, hbase, baseSha, hbaseSha,
      .inr ⟨title, htitle, .inr ⟨user, huser, h⟩⟩⟩

theorem buildJob_ok {delivery event action : String} {payload : List (String × Json)}
    {built : BuiltJob} (h : buildJob delivery event action payload = .ok built) :
    ∃ pr repo number name, (Json.obj payload).item "pull_request" = .ok pr ∧
      (Json.obj payload).item "repository" = .ok repo ∧ pr.item "number" = .ok number ∧
      number.toInt = .ok built.job.prNumber ∧ repo.item "full_name" = .ok name ∧
      name.text = .ok built.job.repoFullName ∧ name.encodable = built.encodable ∧
      built.job.deliveryId = delivery ∧
      built.job.event = (if event = "" then "pull_request" else event) ∧
      built.job.action = action := by
  simp only [buildJob, ok_bind_iff] at h
  obtain ⟨pr, hpr, repo, hrepo, name, hname, id, hid, n, hn, isPrivate, hprivate, number, hnumber,
    m, hm, head, hhead, headSha, hheadSha, base, hbase, baseSha, hbaseSha, title, htitle, user,
    huser, login, hlogin, fullName, hfullName, _, _, _, _, _, _, _, _, hbuilt⟩ := h
  cases hbuilt
  exact ⟨pr, repo, number, name, hpr, hrepo, hnumber, hm, hname, hfullName, rfl, rfl, rfl, rfl⟩

end Interp

/-- An answer, unless what it says cannot be written: `ValueError`, or its subclass
`UnicodeEncodeError`. -/
def jsonResponse (content : List (String × Json)) (status : ℕ) (s : Server) :
    Except Uncaught JSONResponse × Server :=
  if content.all fun field => field.2.writable then (.ok ⟨content, status⟩, s)
  else (.error (.exc .valueError), s)

def detail (text : String) : String × Json := ("detail", .str text)

/-- What the columns of `deliveries` hold: four-byte integers, and UTF-8 without NUL. -/
def storable (built : BuiltJob) : Bool :=
  let job := built.job
  built.encodable && -2147483648 ≤ job.prNumber && job.prNumber ≤ 2147483647 &&
    [job.deliveryId, job.event, job.action, job.repoFullName].all fun text =>
      '\x00' ∉ text.toList

def acceptDelivery (built : BuiltJob) (s : Server) : Except Uncaught JSONResponse × Server :=
  let job := built.job
  let duplicate := [detail "duplicate", ("delivery", .str job.deliveryId)]
  let (seen, ingress) := s.ingress.seenDelivery job.deliveryId
  let s := s.did .seenDelivery ingress
  if seen then jsonResponse duplicate 200 s
  else if !storable built then (.error .dataError, s.did .recordDelivery s.ingress)
  else
    let (fresh, ingress) := s.ingress.recordDelivery job
    let s := s.did .recordDelivery ingress
    if !fresh then jsonResponse duplicate 200 s
    else
      let (_, ingress) := s.ingress.enqueueReview job
      jsonResponse [detail "accepted", ("delivery", .str job.deliveryId), ("pr", .int job.prNumber)]
        202 (s.did .enqueueReview ingress)

def Answered (x : Except Uncaught JSONResponse × Server) : Prop :=
  ∃ reply, x.1 = .ok reply ∧ (reply.status = 200 ∨ reply.status = 202 ∨ reply.status = 400)

def Refused (reply : JSONResponse) : Prop := reply.status = 400 ∨ detail "ignored" ∈ reply.content

def Untouched (s : Server) (x : Except Uncaught JSONResponse × Server) : Prop :=
  ∀ reply, x.1 = .ok reply → Refused reply → x.2 = s

theorem answered_jsonResponse {content : List (String × Json)} {status : ℕ} {s : Server}
    (hstatus : status = 200 ∨ status = 202 ∨ status = 400) :
    Answered (jsonResponse content status s) ↔ ∀ field ∈ content, field.2.writable = true := by
  simp only [Answered, jsonResponse, List.all_eq_true]
  split
  · rename_i hwritable
    exact iff_of_true ⟨_, rfl, hstatus⟩ hwritable
  · rename_i hwritable
    exact iff_of_false (by simp) hwritable

theorem jsonResponse_snd (content : List (String × Json)) (status : ℕ) (s : Server) :
    (jsonResponse content status s).2 = s := by
  unfold jsonResponse
  split <;> rfl

theorem untouched_jsonResponse (content : List (String × Json)) (status : ℕ) (s : Server) :
    Untouched s (jsonResponse content status s) := fun _ _ _ => jsonResponse_snd content status s

theorem not_answered_error (e : Uncaught) (s : Server) : ¬ Answered (.error e, s) := by
  rintro ⟨reply, h, -⟩
  cases h

theorem untouched_error (e : Uncaught) (s t : Server) : Untouched s (.error e, t) := by
  intro reply h
  cases h

theorem untouched_accepted {content : List (String × Json)} {status : ℕ} {s t : Server}
    (hstatus : status ≠ 400) (hcontent : detail "ignored" ∉ content) :
    Untouched s (jsonResponse content status t) := by
  intro reply hreply hrefused
  unfold jsonResponse at hreply
  split at hreply
  · cases hreply
    exact absurd hrefused (by simp [Refused, hstatus, hcontent])
  · cases hreply

theorem untouched_acceptDelivery (built : BuiltJob) (s : Server) :
    Untouched s (acceptDelivery built s) := by
  unfold acceptDelivery
  simp only
  split
  · exact untouched_accepted (by decide) (by simp [detail])
  · split
    · exact untouched_error _ _ _
    · split
      · exact untouched_accepted (by decide) (by simp [detail])
      · exact untouched_accepted (by decide) (by simp [detail])

theorem answered_acceptDelivery (built : BuiltJob) (s : Server) :
    Answered (acceptDelivery built s) ↔ built.job.deliveryId ∈ s.ingress.keys ∨ storable built = true := by
  have hseen : (s.ingress.seenDelivery built.job.deliveryId).1 = decide (built.job.deliveryId ∈ s.ingress.keys) := by
    unfold Ingress.seenDelivery
    split <;> simp [*]
  unfold acceptDelivery
  simp only [hseen, decide_eq_true_eq]
  split
  · rename_i hkey
    exact iff_of_true ((answered_jsonResponse (.inl rfl)).mpr (by simp [detail, Json.writable])) (.inl hkey)
  · rename_i hkey
    rw [or_iff_right hkey]
    split
    · rename_i hfits
      exact iff_of_false (not_answered_error _ _) (by simpa using hfits)
    · rename_i hfits
      have hstorable : storable built = true := by simpa using hfits
      refine iff_of_true ?_ hstorable
      split
      · exact (answered_jsonResponse (.inl rfl)).mpr (by simp [detail, Json.writable])
      · exact (answered_jsonResponse (.inr (.inl rfl))).mpr (by simp [detail, Json.writable])

theorem acceptDelivery_run {built : BuiltJob} {s : Server} (hidle : s.ingress.inFlight = [])
    (hfits : storable built = true) :
    let t := Runs.run Ingress.step s.ingress
      [.arrive built.job, .advance 0 .returns, .advance 0 .returns, .advance 0 .returns]
    let u := (acceptDelivery built s).2.ingress
    t.inFlight = [] ∧ t.keys = u.keys ∧ t.deliveries = u.deliveries ∧ t.queue = u.queue := by
  by_cases hkey : built.job.deliveryId ∈ s.ingress.keys
  · simp [Runs.run, acceptDelivery, Ingress.step, Ingress.proceed, Ingress.claim, Ingress.resume,
      Ingress.seenDelivery, Ingress.answer, Crash.Exec.call, hkey, hidle, jsonResponse_snd,
      Server.did]
  · cases hfresh : (s.ingress.deliveries.insertNew (deliveryRow built.job)).1 with
    | false =>
      simp [Runs.run, acceptDelivery, Ingress.step, Ingress.proceed, Ingress.claim,
        Ingress.resume, Ingress.seenDelivery, Ingress.answer, Ingress.record,
        Ingress.recordDelivery, Crash.Exec.call, hkey, hidle, jsonResponse_snd, Server.did, hfits,
        hfresh]
    | true =>
      simp [Runs.run, acceptDelivery, Ingress.step, Ingress.proceed, Ingress.claim,
        Ingress.resume, Ingress.seenDelivery, Ingress.answer, Ingress.record,
        Ingress.recordDelivery, Ingress.enqueue, Ingress.enqueueReview, Crash.Exec.call, hkey,
        hidle, jsonResponse_snd, Server.did, hfits, hfresh]

section Handler
variable [Interp]

def isDraft (payload : List (String × Json)) : Except Exc Bool := do
  let draft ← (Json.getD payload "pull_request" (.obj [])).get "draft" .null
  pure draft.truthy

def handleReview (delivery event action : String) (payload : List (String × Json)) (s : Server) :
    Except Uncaught JSONResponse × Server :=
  match buildJob delivery event action payload with
  | .error e =>
    if isUnusable e then jsonResponse [detail "malformed pull_request payload"] 400 s
    else (.error (.exc e), s)
  | .ok built =>
    match isDraft payload with
    | .error e => (.error (.exc e), s)
    | .ok draft =>
      if draft && action ≠ "ready_for_review" then
        jsonResponse [detail "ignored", ("reason", .str "draft")] 202 s
      else acceptDelivery built s

def handlePayload (delivery event : String) (payload : List (String × Json)) (s : Server) :
    Except Uncaught JSONResponse × Server :=
  let action := Json.getD payload "action" (.str "")
  match reviewable action with
  | .error e => (.error (.exc e), s)
  | .ok false => jsonResponse [detail "ignored", ("action", action)] 202 s
  | .ok true => handleReview delivery event action.toStr payload s

/-- The delivery does not fit the columns that record it. -/
def Misfit (delivery : String) (payload : List (String × Json)) : Prop :=
  '\x00' ∈ delivery.toList ∨
    ∃ pr repo number n name, (Json.obj payload).item "pull_request" = .ok pr ∧
      (Json.obj payload).item "repository" = .ok repo ∧ pr.item "number" = .ok number ∧
      number.toInt = .ok n ∧ repo.item "full_name" = .ok name ∧
      (n < -2147483648 ∨ 2147483647 < n ∨ name.encodable = false ∨
        ∃ text, name = .str text ∧ '\x00' ∈ text.toList)

/-- A payload to review that nothing catches: the job breaks, or it is built and its
row refused. -/
def Lost (delivery action : String) (s : Ingress) (payload : List (String × Json)) : Prop :=
  JobBreaks payload ∨
    (∃ built, buildJob delivery "pull_request" action payload = .ok built) ∧
      (isDraft payload = .ok true → action = "ready_for_review") ∧
      delivery ∉ s.keys ∧ Misfit delivery payload

/-- So is one whose action cannot be looked up in a set, or not be written back. -/
def Upsets (delivery : String) (s : Ingress) (payload : List (String × Json)) : Prop :=
  let action := Json.getD payload "action" (.str "")
  action.hashable = false ∨ action.writable = false ∨
    ∃ name ∈ reviewableActions, action = .str name ∧ Lost delivery name s payload

theorem misfit_iff {delivery name : String} {payload : List (String × Json)} {built : BuiltJob}
    (hname : name ∈ reviewableActions)
    (hbuilt : buildJob delivery "pull_request" name payload = .ok built) :
    Misfit delivery payload ↔ storable built = false := by
  obtain ⟨pr, repo, number, fullName, hpr, hrepo, hnumber, hn, hfull, htext, hencodable, hdelivery,
    hevent, haction⟩ := buildJob_ok hbuilt
  have hplain : '\x00' ∉ built.job.event.toList ∧ '\x00' ∉ built.job.action.toList := by
    rw [hevent, haction]
    simp only [reviewableActions, List.mem_cons, List.not_mem_nil, or_false] at hname
    rcases hname with rfl | rfl | rfl | rfl <;> decide
  have hmisfit : Misfit delivery payload ↔ '\x00' ∈ built.job.deliveryId.toList ∨
      (built.job.prNumber < -2147483648 ∨ 2147483647 < built.job.prNumber ∨
        fullName.encodable = false ∨ ∃ text, fullName = .str text ∧ '\x00' ∈ text.toList) := by
    rw [Misfit, hdelivery]
    refine or_congr_right ⟨?_, fun h => ⟨pr, repo, number, _, _, hpr, hrepo, hnumber, hn, hfull, h⟩⟩
    rintro ⟨pr', repo', number', n', name', hpr', hrepo', hnumber', hn', hfull', h⟩
    cases hpr.symm.trans hpr'
    cases hrepo.symm.trans hrepo'
    cases hnumber.symm.trans hnumber'
    cases hn.symm.trans hn'
    cases hfull.symm.trans hfull'
    exact h
  rw [hmisfit]
  cases hwritten : built.encodable with
  | false => simp [storable, hencodable, hwritten]
  | true =>
    have hstr : fullName = .str built.job.repoFullName :=
      Json.text_ok htext (hencodable.trans hwritten)
    have hnul : (∃ text, fullName = .str text ∧ '\x00' ∈ text.toList) ↔
        '\x00' ∈ built.job.repoFullName.toList := by simp [hstr]
    simp only [storable, hwritten, hencodable, hnul, Bool.true_and, List.all_cons, List.all_nil,
      Bool.and_true, Bool.and_eq_false_iff, decide_eq_false_iff_not, not_le, not_not, hplain.1,
      hplain.2, false_or, Bool.true_eq_false]
    exact (or_left_comm.trans (or_congr_right or_assoc)).symm

theorem isDraft_of_buildJob {delivery event action : String} {payload : List (String × Json)}
    {built : BuiltJob} (h : buildJob delivery event action payload = .ok built) :
    ∃ draft, isDraft payload = .ok draft := by
  obtain ⟨pr, _, _, _, hpr, _, hnumber, _⟩ := buildJob_ok h
  have hget : Json.getD payload "pull_request" (.obj []) = pr := by
    simp only [Json.item] at hpr
    split at hpr
    · rename_i hlookup
      cases hpr
      simp [Json.getD, hlookup]
    · cases hpr
  obtain ⟨draft, hdraft⟩ := get_of_item hnumber "draft" .null
  exact ⟨draft.truthy, by simp [isDraft, hget, hdraft]⟩

theorem untouched_handleReview (delivery action : String) (payload : List (String × Json))
    (s : Server) : Untouched s (handleReview delivery "pull_request" action payload s) := by
  unfold handleReview
  split
  · split
    · exact untouched_jsonResponse _ _ _
    · exact untouched_error _ _ _
  · split
    · exact untouched_error _ _ _
    · split
      · exact untouched_jsonResponse _ _ _
      · exact untouched_acceptDelivery _ _

theorem answered_handleReview {action : String} (delivery : String)
    (payload : List (String × Json)) (s : Server) (haction : action ∈ reviewableActions) :
    Answered (handleReview delivery "pull_request" action payload s) ↔
      ¬ Lost delivery action s.ingress payload := by
  unfold handleReview Lost
  rw [← escapes_buildJob delivery "pull_request" action payload]
  cases hjob : buildJob delivery "pull_request" action payload with
  | error e =>
    have hescapes : Escapes (.error e : Except Exc BuiltJob) ↔ isUnusable e = false := by
      simp [Escapes]
    dsimp only
    rw [hescapes]
    by_cases hunusable : isUnusable e = true
    · rw [if_pos hunusable]
      refine iff_of_true ((answered_jsonResponse (.inr (.inr rfl))).mpr ?_) (by simp [hunusable])
      simp [detail, Json.writable]
    · rw [if_neg hunusable]
      exact iff_of_false (not_answered_error _ _) (by simpa using hunusable)
  | ok built =>
    have hescapes : ¬ Escapes (.ok built : Except Exc BuiltJob) := escapes_pure built
    obtain ⟨draft, hdraft⟩ := isDraft_of_buildJob hjob
    obtain ⟨_, _, _, _, _, _, _, _, _, _, _, hdelivery, _, _⟩ := buildJob_ok hjob
    rw [or_iff_right hescapes, hdraft, misfit_iff haction hjob, ← hdelivery]
    by_cases hskip : draft = true ∧ action ≠ "ready_for_review"
    · obtain ⟨rfl, hready⟩ := hskip
      refine iff_of_true ?_ (by simp [hready])
      simp [hready, answered_jsonResponse, detail, Json.writable]
    · have hgoes : draft = true → action = "ready_for_review" := by
        intro h
        by_contra hready
        exact hskip ⟨h, hready⟩
      have hbranch : (draft && action ≠ "ready_for_review") = false := by
        cases draft with
        | false => rfl
        | true => simp [hgoes rfl]
      simp only [hbranch]
      rw [if_neg (by simp), answered_acceptDelivery]
      simp only [Except.ok.injEq]
      rw [and_iff_right ⟨built, rfl⟩, and_iff_right hgoes]
      simp [not_and, or_iff_not_imp_left]

theorem untouched_handlePayload (delivery : String) (payload : List (String × Json)) (s : Server) :
    Untouched s (handlePayload delivery "pull_request" payload s) := by
  unfold handlePayload
  simp only
  split
  · exact untouched_error _ _ _
  · exact untouched_jsonResponse _ _ _
  · exact untouched_handleReview _ _ _ _

theorem answered_handlePayload (delivery : String) (payload : List (String × Json)) (s : Server) :
    Answered (handlePayload delivery "pull_request" payload s) ↔
      ¬ Upsets delivery s.ingress payload := by
  unfold handlePayload Upsets
  simp only
  generalize Json.getD payload "action" (.str "") = action
  cases hreviewable : reviewable action with
  | error e =>
    have hunhashable := (reviewable_error_iff.mp hreviewable).2
    exact iff_of_false (not_answered_error _ _) (by simp [hunhashable])
  | ok review =>
    cases review with
    | false =>
      obtain ⟨hhash, hnone⟩ := reviewable_false hreviewable
      have hlost : ¬ ∃ name ∈ reviewableActions,
          action = .str name ∧ Lost delivery name s.ingress payload := by
        rintro ⟨name, hname, heq, -⟩
        exact hnone name hname heq
      simp only [answered_jsonResponse (Or.inr (Or.inl rfl)), hlost, hhash]
      simp [detail, Json.writable]
    | true =>
      obtain ⟨name, hname, rfl⟩ := reviewable_true hreviewable
      rw [Json.toStr, answered_handleReview _ _ _ hname]
      simp [Json.hashable, Json.writable, hname]

variable [Codecs]

def requestJson (body : List UInt8) : Except Exc Json := do
  let text ← Codecs.decode body
  loadSyms text

def githubWebhook (secret : String) (r : WebhookRequest) (s : Server) :
    Except Uncaught JSONResponse × Server :=
  match verifySignature secret r.body r.signature with
  | .error e => (.error (.exc e), s)
  | .ok false => jsonResponse [detail "invalid signature"] 401 s
  | .ok true =>
    match r.delivery with
    | none | some "" => jsonResponse [detail "missing delivery id"] 400 s
    | some delivery =>
      match r.event with
      | some "ping" => jsonResponse [detail "pong"] 200 s
      | some "pull_request" =>
        let s := s.did .json s.ingress
        match requestJson r.body with
        | .ok (.obj payload) => handlePayload delivery "pull_request" payload s
        | _ => jsonResponse [detail "malformed json body"] 400 s
      | event =>
        jsonResponse [detail "ignored", ("event", event.elim .null .str)] 202 s

/-- Of the requests that carry no valid signature, those are answered 401 whose header
can be compared at all; none of them touches anything. -/
theorem unauthenticated_iff (secret : String) (r : WebhookRequest) (s : Server)
    (hforged : ¬ (secret ≠ "" ∧ r.signature = some (computeSignature secret r.body))) :
    (githubWebhook secret r s).2 = s ∧
    ((∃ reply, (githubWebhook secret r s).1 = .ok reply ∧ reply.status = 401) ↔
      ¬ (secret ≠ "" ∧ ∃ header, r.signature = some header ∧ startswith header "sha256=" = true ∧
        ∃ c ∈ header.toList, isAscii c = false)) := by
  have hcondition (header : String) :
      (∃ c ∈ header.toList, isAscii c = false) ↔ header.toList.all isAscii = false := by simp
  simp only [hcondition]
  rw [← verifySignature_error_iff]
  rw [← verifySignature_true_iff] at hforged
  cases hverify : verifySignature secret r.body r.signature with
  | error e => simp [githubWebhook, hverify]
  | ok valid =>
    cases valid with
    | true => exact absurd hverify hforged
    | false => simp [githubWebhook, hverify, jsonResponse, detail, Json.writable]

end Handler

@[reducible] def codecsOf (digest : String) (h : digest.toList.all isAscii = true) : Codecs where
  hexdigest _ _ := digest
  hexdigest_ascii _ _ := List.all_eq_true.mp h
  decode body := .ok (body.map fun b => .char (.ofNat b.toNat))

def bytesOf (text : List Char) : List UInt8 := text.map fun c => .ofNat c.toNat

theorem decode_bytesOf (digest : String) (h : digest.toList.all isAscii = true) {text : List Char}
    (htext : text.all isAscii = true) :
    (codecsOf digest h).decode (bytesOf text) = .ok (text.map .char) := by
  refine congrArg Except.ok ?_
  rw [bytesOf, List.map_map]
  refine List.map_congr_left fun c hc => ?_
  have hascii : c.toNat < 128 := by simpa [isAscii] using List.all_eq_true.mp htext c hc
  have hbyte : (UInt8.ofNat c.toNat).toNat = c.toNat := by
    simp only [UInt8.toNat_ofNat']
    omega
  simp [hbyte]

def emptyDigest : String := "2a79bcad68de497348b761f400e313ec343cfd84b2f2c422fe91236ee52618cb"

@[reducible] def emptyCodecs : Codecs := codecsOf emptyDigest (by decide +kernel)

theorem forged_rejected :
    let _ := asciiInterp
    let _ := emptyCodecs
    ∃ reply, (githubWebhook "hush" { body := [], signature := some "sha256=00" } {}).1 = .ok reply ∧
      reply.status = 401 := by
  intro _ _
  refine ((unauthenticated_iff "hush" { body := [], signature := some "sha256=00" } {} ?_).2).mpr ?_
  · rintro ⟨-, h⟩
    have hdigest : "00" = emptyDigest := (String.append_right_inj "sha256=").mp (Option.some.inj h)
    revert hdigest
    decide
  · rintro ⟨-, header, h, -, c, hc, hascii⟩
    cases h
    have hall : "sha256=00".toList.all isAscii = true := by decide
    rw [List.all_eq_true.mp hall c hc] at hascii
    cases hascii

/-- A header of the right scheme that is not ASCII: the comparison raises. -/
theorem forged_raises :
    let _ := asciiInterp
    let _ := emptyCodecs
    some "sha256=é" ≠ some (computeSignature "hush" []) ∧
      (githubWebhook "hush" { body := [], signature := some "sha256=é" } {}).1 =
        .error (.exc .typeError) := by
  intro _ _
  have hascii : "sha256=é".toList.all isAscii = false := by decide
  constructor
  · intro h
    have hsigned := computeSignature_ascii "hush" []
    rw [← Option.some.inj h, hascii] at hsigned
    cases hsigned
  · have hverify : verifySignature "hush" [] (some "sha256=é") = .error .typeError := by
      simp only [verifySignature]
      rw [if_neg (by decide), if_neg (by decide), compareDigest_signature, if_neg (ne_true_of_eq_false hascii)]
    simp only [githubWebhook, hverify]

section Authenticated
variable [Interp] [Codecs]

theorem requestJson_of_isValue {body : List UInt8} {text : List Sym} {x : Json}
    (hdecode : Codecs.decode body = .ok text) (hvalue : isValue x (loadSyms text) = true) :
    requestJson body = .ok x := ok_bind_iff.mpr ⟨text, hdecode, eq_of_isValue hvalue⟩

/-- Authenticated requests, whatever their body: who is refused has touched nothing, and
no request fails to be answered but on an upsetting payload. -/
theorem crashes_iff (secret delivery : String) (r : WebhookRequest) (s : Server)
    (hsigned : secret ≠ "" ∧ r.signature = some (computeSignature secret r.body))
    (hdelivery : r.delivery = some delivery) (hnonempty : delivery ≠ "")
    (hevent : r.event = some "pull_request") :
    Untouched (s.did .json s.ingress) (githubWebhook secret r s) ∧
    (Answered (githubWebhook secret r s) ↔
      ¬ ∃ payload, requestJson r.body = .ok (.obj payload) ∧
        Upsets delivery s.ingress payload) := by
  have hserve : githubWebhook secret r s =
      match requestJson r.body with
      | .ok (.obj payload) => handlePayload delivery "pull_request" payload (s.did .json s.ingress)
      | _ => jsonResponse [detail "malformed json body"] 400 (s.did .json s.ingress) := by
    simp [githubWebhook, (verifySignature_true_iff _ _ _).mpr hsigned, hdelivery, hevent]
  rw [hserve]
  split
  · rename_i payload hjson
    refine ⟨untouched_handlePayload _ _ _, ?_⟩
    rw [answered_handlePayload, hjson]
    simp [Server.did]
  · rename_i hother
    refine ⟨untouched_jsonResponse _ _ _, iff_of_true ?_ ?_⟩
    · exact (answered_jsonResponse (.inr (.inr rfl))).mpr (by simp [detail, Json.writable])
    · rintro ⟨payload, hjson, -⟩
      exact hother payload hjson

end Authenticated

def openedDigest : String := "5c647ee194e669bbdee85f2d1815cc2e0ba78573d24c50b0e6ce5ae7d24a76cf"

@[reducible] def openedCodecs : Codecs := codecsOf openedDigest (by decide +kernel)

def openedText : List Char :=
  ["\x7b\"action\":\"opened\",", "\"pull_request\":", "\x7b\"number\":7,\"head\":",
    "\x7b\"sha\":\"c1\"\x7d,\"base\":", "\x7b\"sha\":\"b1\"\x7d\x7d,", "\"repository\":",
    "\x7b\"id\":1,\"full_name\":", "\"acme/app\"\x7d\x7d"].flatMap String.toList

def openedRequest : WebhookRequest where
  body := bytesOf openedText
  event := some "pull_request"
  delivery := some "d-1"
  signature := some ("sha256=" ++ openedDigest)

def openedPayload : List (String × Json) :=
  [("action", .str "opened"),
    ("pull_request", .obj [("number", .int 7), ("head", .obj [("sha", .str "c1")]),
      ("base", .obj [("sha", .str "b1")])]),
    ("repository", .obj [("id", .int 1), ("full_name", .str "acme/app")])]

theorem opened_answered :
    let _ := asciiInterp
    let _ := openedCodecs
    Answered (githubWebhook "hush" openedRequest {}) := by
  intro _ _
  have hjson : requestJson openedRequest.body = .ok (.obj openedPayload) :=
    requestJson_of_isValue (decode_bytesOf _ _ (by decide +kernel)) (by decide +kernel)
  refine ((crashes_iff "hush" "d-1" openedRequest {} ⟨by decide, rfl⟩ rfl (by decide) rfl).2).mpr ?_
  rintro ⟨payload, hpayload, h⟩
  obtain rfl : openedPayload = payload :=
    Json.obj.inj (Except.ok.inj (hjson.symm.trans hpayload))
  rcases h with h | h | ⟨name, hname, h, hlost⟩
  · cases h
  · cases h
  · cases h
    have hbuild : buildJob "d-1" "pull_request" "opened" openedPayload =
        .ok ⟨Ingress.someJob, true⟩ := rfl
    rcases hlost with hbreaks | ⟨-, -, -, hmisfit⟩
    · rw [← escapes_buildJob "d-1" "pull_request" "opened", hbuild] at hbreaks
      exact escapes_pure _ hbreaks
    · cases (misfit_iff hname hbuild).mp hmisfit

def listedDigest : String := "399307c26f134b6c7463e0c930db83b69824adef99e9c724b4bc6ee428f598f3"

@[reducible] def listedCodecs : Codecs := codecsOf listedDigest (by decide +kernel)

def listedText : List Char := "\x7b\"action\":[\"opened\"]\x7d".toList

def listedRequest : WebhookRequest where
  body := bytesOf listedText
  event := some "pull_request"
  delivery := some "d-1"
  signature := some ("sha256=" ++ listedDigest)

/-- A list cannot be looked up in a set. -/
theorem listed_raises :
    let _ := asciiInterp
    let _ := listedCodecs
    verifySignature "hush" listedRequest.body listedRequest.signature = .ok true ∧
      (githubWebhook "hush" listedRequest {}).1 = .error (.exc .typeError) := by
  intro _ _
  have hverify : verifySignature "hush" listedRequest.body listedRequest.signature = .ok true :=
    (verifySignature_true_iff _ _ _).mpr ⟨by decide, rfl⟩
  have hjson : requestJson listedRequest.body = .ok (.obj [("action", .arr [.str "opened"])]) :=
    requestJson_of_isValue (decode_bytesOf _ _ (by decide +kernel)) (by decide +kernel)
  refine ⟨hverify, ?_⟩
  simp only [githubWebhook, hverify, hjson]
  rfl

end PrSentinel
