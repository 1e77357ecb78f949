import Boreas.Demote
import Boreas.Filter
import Boreas.Rules
import Boreas.Runs

/-! # Reloading the rules

`Tunnel::reload` compiles the lists into a `HostPolicy`; the resolver takes it when it admits a query.  The rule
engine for intercepted connections is compiled once, when the tunnel starts.  The model logs every decision with the
lists that are due: `replaced_run` has the rules of those lists, in every run that decides requests and documents only
while the engine is theirs. -/

namespace Boreas.Reload

open Dns Http Rules List Runs
open Intercept (InterceptedTier)

/-- A query admitted by the resolver, with the policy its task was given; `due` are the lists in force then. -/
structure Task where
  question : Question
  policy : HostPolicy
  due : List Text

inductive Decision (A : Adblock)
  | query (question : Question) (plan : QueryPlan)
  | request (host : Bytes) (request : Request) (verdict : FilterVerdict)
  | document (host : Bytes) (tier : InterceptedTier) (rules : Option (HidingRules A))

/-- A running tunnel: the value of the `watch` channel, the sessions' engine and whether documents are rewritten, the
resolver's tasks.  `lists` are those of the last reload, and `decisions` what was decided so far, with the lists due. -/
structure Tunnel (A : Adblock) where
  policy : HostPolicy
  engine : RuleEngine A
  documents : Bool
  tasks : List Task
  lists : List Text
  decisions : List (List Text × Decision A)

section
variable (parseIp : Text → Option IpAddr) {A : Adblock}

namespace Tunnel

def start (lists : List Text) (documents : Bool) : Tunnel A :=
  ⟨compile parseIp lists, .fromLists lists, documents, [], lists, []⟩

variable (w : Tunnel A)

def reload (lists : List Text) : Tunnel A × RuleCounts :=
  let policy := compile parseIp lists
  ({ w with policy := policy, lists := lists }, policy.len)

def admits (question : Question) : Tunnel A :=
  { w with tasks := w.tasks ++ [⟨question, w.policy, w.lists⟩] }

def plan (i : ℕ) : Tunnel A :=
  match w.tasks[i]? with
  | none => w
  | some task =>
    { w with
      tasks := w.tasks.eraseIdx i
      decisions := w.decisions ++ [(task.due, .query task.question (planQuery task.question task.policy))] }

/-- The filter of `Proxy::forward`. -/
def request (host : Bytes) (request : Request) : Tunnel A :=
  { w with decisions := w.decisions ++ [(w.lists, .request host request (w.engine.verdict host request))] }

/-- `Rewriting::rules`: without documents there is no source of rules, and the inspecting tier asks none. -/
def document (host : Bytes) (tier : InterceptedTier) : Tunnel A :=
  if tier = .rewrite ∧ w.documents = true then
    let (rules, engine) := w.engine.rules host
    { w with engine := engine, decisions := w.decisions ++ [(w.lists, .document host tier rules)] }
  else { w with decisions := w.decisions ++ [(w.lists, .document host tier none)] }

end Tunnel

inductive Event
  | reload (lists : List Text)
  | admits (question : Question)
  | plan (task : ℕ)
  | request (host : Bytes) (request : Request)
  | document (host : Bytes) (tier : InterceptedTier)

variable (w : Tunnel A)

def step : Event → Tunnel A
  | .reload lists => (w.reload parseIp lists).1
  | .admits question => w.admits question
  | .plan i => w.plan i
  | .request host request => w.request host request
  | .document host tier => w.document host tier

/-! ### What a reload promises -/

/-- The decision is the one of the rules compiled from `lists`, and of no others. -/
def DecidedBy (documents : Bool) (lists : List Text) : Decision A → Prop
  | .query question plan => plan = planQuery question (compile parseIp lists)
  | .request host request verdict => verdict = urlVerdict (A.compile lists) host request
  | .document host tier rules =>
    rules = if tier = .rewrite ∧ documents = true then hidingRules (A.compile lists) (host.map lower) else none

/-- Every decision so far was made with the rules of the lists due to it. -/
def Replaced : Prop := ∀ entry ∈ w.decisions, DecidedBy parseIp w.documents entry.1 entry.2

/-- What the event decides with the engine, it decides with the one `lists` compile to. -/
def EngineFrom (lists : List Text) (w : Tunnel A) : Event → Prop
  | .request _ _ => w.engine.engine = A.compile lists
  | .document _ tier => tier = .rewrite → w.documents = true → w.engine.engine = A.compile lists
  | _ => True

/-- Requests and documents are decided while the engine is the one the lists in force compile to. -/
def EngineDue (e : Event) : Prop := EngineFrom w.lists w e

/-! ### Snapshots and memo -/

/-- The channel and the snapshots hold compiled lists, and the engine's memo is coherent. -/
structure Sound (w : Tunnel A) : Prop where
  policy : w.policy = compile parseIp w.lists
  tasks : ∀ task ∈ w.tasks, task.policy = compile parseIp task.due
  memo : w.engine.Coherent

variable {parseIp}

theorem sound_start (lists : List Text) (documents : Bool) :
    Sound parseIp (Tunnel.start parseIp lists documents : Tunnel A) :=
  ⟨rfl, nofun, RuleEngine.coherent_fromLists lists⟩

theorem Sound.step {w : Tunnel A} (h : Sound parseIp w) (e : Event) : Sound parseIp (step parseIp w e) := by
  cases e with
  | reload lists => exact ⟨rfl, h.tasks, h.memo⟩
  | admits q =>
    refine ⟨h.policy, fun task htask => ?_, h.memo⟩
    rcases mem_append.mp htask with htask | htask
    · exact h.tasks task htask
    · rw [mem_singleton.mp htask]
      exact h.policy
  | plan i =>
    dsimp only [Reload.step, Tunnel.plan]
    split
    · exact h
    · exact ⟨h.policy, fun task htask => h.tasks task (mem_of_mem_eraseIdx htask), h.memo⟩
  | request host request => exact { h with }
  | document host tier =>
    dsimp only [Reload.step, Tunnel.document]
    split_ifs
    · exact ⟨h.policy, h.tasks, (RuleEngine.rules_eq h.memo host).2⟩
    · exact { h with }

theorem mem_or_of_mem_snoc {P : α → Prop} (ha : P a) : ∀ x ∈ l ++ [a], x ∈ l ∨ P x := by
  intro x hx
  rcases mem_append.mp hx with hx | hx
  · exact .inl hx
  · rw [mem_singleton.mp hx]
    exact .inr ha

/-- **One step**: a query is decided with the lists due to it, the rest with the lists the engine is from. -/
theorem decided_step {w : Tunnel A} (h : Sound parseIp w) (hengine : EngineFrom lists w e) :
    ∀ entry ∈ (step parseIp w e).decisions, entry ∈ w.decisions ∨ (DecidedBy parseIp w.documents entry.1 entry.2 ∨
        entry.1 = w.lists ∧ DecidedBy parseIp w.documents lists entry.2) := by
  cases e with
  | reload lists' | admits q => exact fun entry hentry => .inl hentry
  | plan i =>
    dsimp only [Reload.step, Tunnel.plan]
    rcases htask : w.tasks[i]? with _ | task
    · exact fun entry hentry => .inl hentry
    refine mem_or_of_mem_snoc (.inl ?_)
    dsimp only [DecidedBy]
    rw [h.tasks task (mem_of_getElem? htask)]
  | request host request =>
    have hengine' : w.engine.engine = A.compile lists := hengine
    refine mem_or_of_mem_snoc (.inr ⟨rfl, ?_⟩)
    dsimp only [DecidedBy, RuleEngine.verdict]
    rw [hengine']
  | document host tier =>
    dsimp only [Reload.step, Tunnel.document]
    split_ifs with htier
    · refine mem_or_of_mem_snoc (.inr ⟨rfl, ?_⟩)
      dsimp only [DecidedBy]
      rw [if_pos htier, (RuleEngine.rules_eq h.memo host).1, hengine htier.1 htier.2]
    · refine mem_or_of_mem_snoc (.inr ⟨rfl, ?_⟩)
      dsimp only [DecidedBy]
      rw [if_neg htier]

theorem fixed_step (e : Event) :
    (step parseIp w e).engine.engine = w.engine.engine ∧ (step parseIp w e).documents = w.documents := by
  cases e with
  | plan i =>
    dsimp only [Reload.step, Tunnel.plan]
    split <;> exact ⟨rfl, rfl⟩
  | document host tier =>
    dsimp only [Reload.step, Tunnel.document]
    split_ifs
    · exact ⟨RuleEngine.engine_rules w.engine host, rfl⟩
    · exact ⟨rfl, rfl⟩
  | _ => exact ⟨rfl, rfl⟩

/-! ### Whole runs -/

/-- **A reload replaces the rules** in every run whose requests and documents are decided while the engine is the one
the lists in force compile to. -/
theorem replaced_run (parseIp : Text → Option IpAddr) (A : Adblock) (lists : List Text) (documents : Bool)
    (es : List Event) (hdue : Along (step parseIp) EngineDue (Tunnel.start parseIp lists documents : Tunnel A) es) :
    Replaced parseIp (run (step parseIp) (Tunnel.start parseIp lists documents : Tunnel A) es) := by
  refine (run_invariant (I := fun w : Tunnel A => Sound parseIp w ∧ Replaced parseIp w)
    (fun w e hw hdue => ?_) es _ ⟨sound_start lists documents, nofun⟩ hdue).2
  refine ⟨hw.1.step e, fun entry hentry => ?_⟩
  rw [(fixed_step w e).2]
  rcases decided_step hw.1 hdue entry hentry with hold | hquery | ⟨hlists, hdecided⟩
  · exact hw.2 entry hold
  · exact hquery
  · rw [hlists]
    exact hdecided

end

def bannerRequest : Request := ⟨ascii "GET", ⟨none, none, ascii "/banner.png"⟩, .empty⟩

def bannerLists : List Text := ["/banner\nexample.com##.ad\n||ads.example^".toList]

def adsQuestion : Question := ⟨(Name.parse (ascii "ads.example")).getD .root, .a, 1⟩

/-- Queries follow a reload; a request and a document are decided once the first lists are back. -/
theorem replaced_reverted :
    let es : List Event := [.reload [], .admits adsQuestion, .plan 0, .reload bannerLists,
      .request (ascii "example.com") bannerRequest, .document (ascii "example.com") .rewrite]
    Along (step (fun _ => none)) EngineDue (Tunnel.start (fun _ => none) bannerLists true : Tunnel patterns) es ∧
      Replaced (fun _ => none)
        (run (step fun _ => none) (Tunnel.start (fun _ => none) bannerLists true : Tunnel patterns) es) := by
  intro es
  have hdue : Along (step (fun _ => none)) EngineDue
      (Tunnel.start (fun _ => none) bannerLists true : Tunnel patterns) es :=
    ⟨trivial, trivial, trivial, trivial, rfl, fun _ _ => rfl, trivial⟩
  exact ⟨hdue, replaced_run _ _ _ _ _ hdue⟩

/-- **After a reload** the query for the blocked name is refused, while the request the same lists block is allowed
and the document gets no hiding rules. -/
theorem stale_after_reload :
    let w : Tunnel patterns := run (step fun _ => none) (Tunnel.start (fun _ => none) [] true)
      [.reload bannerLists, .admits adsQuestion, .plan 0, .request (ascii "example.com") bannerRequest,
        .document (ascii "example.com") .rewrite]
    w.decisions = [(bannerLists, .query adsQuestion (.refuse adsQuestion.name)),
        (bannerLists, .request (ascii "example.com") bannerRequest .allow),
        (bannerLists, .document (ascii "example.com") .rewrite none)] ∧
      urlVerdict (patterns.compile bannerLists) (ascii "example.com") bannerRequest = .block ∧
      (hidingRules (patterns.compile bannerLists) (ascii "example.com")).isSome ∧
      ¬ Replaced (fun _ => none) w := by
  intro w
  have hdue : urlVerdict (patterns.compile bannerLists) (ascii "example.com") bannerRequest = .block := by
    decide
  have hdecisions : w.decisions = [(bannerLists, .query adsQuestion (.refuse adsQuestion.name)),
      (bannerLists, .request (ascii "example.com") bannerRequest .allow),
      (bannerLists, .document (ascii "example.com") .rewrite none)] := rfl
  refine ⟨hdecisions, hdue, by decide, fun hreplaced => ?_⟩
  have hreq := hreplaced (bannerLists, .request (ascii "example.com") bannerRequest .allow) (by
    rw [hdecisions]; simp)
  exact absurd (hreq.trans hdue) (by decide)

end Boreas.Reload
