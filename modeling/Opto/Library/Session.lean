import Mathlib.Data.List.Forall2
import Mathlib.Data.Option.Basic

/-!
# Sessions of a client with objects

A client works on objects through handles. Each of its operations is answered and may open a new
object, whose handle is the number of objects so far; what the client does next depends on the
answers alone. Objects that simulate each other give every client the same answers.
-/

namespace Opto

section

variable {Object Object' Operation Answer Result : Type}

/-- What an operation on an object gives: the answer, the object afterwards, and the object that
is opened. -/
structure Reaction (Object Answer : Type) where
  answer : Answer
  object : Object
  opened : Option Object

/-- From the answers so far, the newest last, either the next operation or the result. -/
abbrev Client (Operation Answer Result : Type) := List Answer → (Nat × Operation) ⊕ Result

structure Session (Object Answer : Type) where
  objects : List Object
  answers : List Answer

namespace Session

/-- A session opens on one object. -/
def start (object : Object) : Session Object Answer := ⟨[object], []⟩

variable (react : Object → Operation → Reaction Object Answer) (client : Client Operation Answer Result)

def apply (session : Session Object Answer) (handle : Nat) (object : Object) (operation : Operation) :
    Session Object Answer :=
  let reaction := react object operation
  ⟨session.objects.set handle reaction.object ++ reaction.opened.toList, session.answers ++ [reaction.answer]⟩

/-- The session one operation later, while there is one. -/
def next (session : Session Object Answer) : Option (Session Object Answer) :=
  match client session.answers with
  | .inr _ => none
  | .inl (handle, operation) => session.objects[handle]?.map (session.apply react handle · operation)

/-- The session after a number of operations. -/
def after : Nat → Session Object Answer → Option (Session Object Answer)
  | 0, session => some session
  | k + 1, session => (session.next react client).bind (after k)

/-- What the client returns after some operations. -/
def result (k : Nat) (session : Session Object Answer) : Option Result :=
  (session.after react client k).bind fun last => (client last.answers).getRight?

end Session

/-! Simulation. -/

/-- Related objects answer alike, and what they become and open is related. -/
def Simulates (related : Object → Object' → Prop) (react : Object → Operation → Reaction Object Answer)
    (react' : Object' → Operation → Reaction Object' Answer) : Prop :=
  ∀ object object' operation, related object object' →
    (react object operation).answer = (react' object' operation).answer ∧
      related (react object operation).object (react' object' operation).object ∧
        Option.Rel related (react object operation).opened (react' object' operation).opened

variable {related : Object → Object' → Prop} {react : Object → Operation → Reaction Object Answer}
  {react' : Object' → Operation → Reaction Object' Answer}

/-- The objects are related handle by handle, and the answers are the same. -/
def Session.Alike (related : Object → Object' → Prop) (session : Session Object Answer)
    (session' : Session Object' Answer) : Prop :=
  List.Forall₂ related session.objects session'.objects ∧ session.answers = session'.answers

theorem forall₂_set {xs : List Object} {ys : List Object'} {x : Object} {y : Object'} (i : Nat)
    (h : List.Forall₂ related xs ys) (hxy : related x y) : List.Forall₂ related (xs.set i x) (ys.set i y) := by
  induction h generalizing i with
  | nil => exact .nil
  | cons hhead htail ih =>
    cases i with
    | zero => exact .cons hxy htail
    | succ i => exact .cons hhead (ih i)

theorem forall₂_getElem? {xs : List Object} {ys : List Object'} (h : List.Forall₂ related xs ys) (i : Nat) :
    Option.Rel related xs[i]? ys[i]? := by
  induction h generalizing i with
  | nil => exact .none
  | cons hhead htail ih =>
    cases i with
    | zero => exact .some hhead
    | succ i => exact ih i

theorem forall₂_opened {x : Option Object} {y : Option Object'} (h : Option.Rel related x y) :
    List.Forall₂ related x.toList y.toList := by
  cases h with
  | some hxy => exact .cons hxy .nil
  | none => exact .nil

namespace Session.Alike

variable {session : Session Object Answer} {session' : Session Object' Answer}

theorem next (client : Client Operation Answer Result) (hsimulates : Simulates related react react') (h : session.Alike related session') :
    Option.Rel (Session.Alike related) (session.next react client) (session'.next react' client) := by
  obtain ⟨hobjects, hanswers⟩ := h
  rw [Session.next, Session.next, hanswers]
  rcases client session'.answers with ⟨handle, operation⟩ | returned
  · have hobject := forall₂_getElem? hobjects handle
    dsimp only
    cases hfirst : session.objects[handle]? <;> cases hsecond : session'.objects[handle]? <;>
      rw [hfirst, hsecond] at hobject
    · exact .none
    · cases hobject
    · cases hobject
    · rename_i object object'
      cases hobject with
      | some hrelated =>
        obtain ⟨hanswer, hbecome, hopened⟩ := hsimulates object object' operation hrelated
        refine .some ⟨?_, ?_⟩
        · exact List.rel_append (forall₂_set handle hobjects hbecome) (forall₂_opened hopened)
        · simp only [Session.apply, hanswers, hanswer]
  · exact .none

theorem after (client : Client Operation Answer Result) (hsimulates : Simulates related react react') (k : Nat) (h : session.Alike related session') :
    Option.Rel (Session.Alike related) (session.after react client k) (session'.after react' client k) := by
  induction k generalizing session session' with
  | zero => exact .some h
  | succ k ih =>
    have hnext := h.next client hsimulates
    rw [Session.after, Session.after]
    cases hfirst : session.next react client <;> cases hsecond : session'.next react' client <;>
      rw [hfirst, hsecond] at hnext
    · exact .none
    · cases hnext
    · cases hnext
    · cases hnext with
      | some halike => exact ih halike

/-- Every client returns the same from both. -/
theorem result (client : Client Operation Answer Result) (hsimulates : Simulates related react react') (k : Nat) (h : session.Alike related session') :
    session.result react client k = session'.result react' client k := by
  have hafter := h.after client hsimulates k
  rw [Session.result, Session.result]
  cases hfirst : session.after react client k <;> cases hsecond : session'.after react' client k <;>
    rw [hfirst, hsecond] at hafter
  · rfl
  · cases hafter
  · cases hafter
  · cases hafter with
    | some halike => rw [Option.bind_some, Option.bind_some, halike.2]

end Session.Alike

theorem Session.start_alike {object : Object} {object' : Object'} (h : related object object') :
    (Session.start object : Session Object Answer).Alike related (Session.start object') := ⟨.cons h .nil, rfl⟩

/-- What holds of every answer of the objects holds of the answers of a session. -/
theorem Session.after_answers {P : Answer → Prop} (hreact : ∀ object operation, P (react object operation).answer)
    (client : Client Operation Answer Result) {k : Nat} {session last : Session Object Answer}
    (hstart : ∀ answer ∈ session.answers, P answer) (h : session.after react client k = some last) :
    ∀ answer ∈ last.answers, P answer := by
  induction k generalizing session with
  | zero =>
    obtain rfl := Option.some.inj h
    exact hstart
  | succ k ih =>
    obtain ⟨mid, hmid, hlast⟩ := Option.bind_eq_some_iff.mp h
    apply ih _ hlast
    rw [Session.next] at hmid
    split at hmid
    · cases hmid
    · obtain ⟨object, -, rfl⟩ := Option.map_eq_some_iff.mp hmid
      intro answer hanswer
      rcases List.mem_append.mp hanswer with hanswer | hanswer
      · exact hstart answer hanswer
      · rw [List.mem_singleton.mp hanswer]
        exact hreact _ _

end

end Opto
