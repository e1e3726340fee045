import Opto.Library.Growing
import Opto.Library.TwosComplement
import Opto.Synth.Graph
import Opto.Word.Module

/-!
# Scalar storage behind the bit lowering

The lowering algorithms emit scalar operations through a backend. `Meaning` says what a
backend's bits stand for under one assignment of the inputs: every emission adds to the
store and returns a bit for the operation's value. The AXM backend keeps its bits in a
logic graph, and every assignment of the graph's inputs gives it a meaning.
-/

namespace Opto.Bitblast

open Word Growing

inductive SynthError (ε : Type)
  | backend (e : ε)
  | invariant (message : String)
  | panic (message : String)
  | fuel
deriving DecidableEq

abbrev BlastM (σ ε : Type) := StateT σ (Except (SynthError ε))

class BitBackend (σ : Type) (ε β : outParam Type) where
  constant : Bool → BlastM σ ε β
  unsignedBit : β → BlastM σ ε β
  emitUnary : UnaryOp → β → BlastM σ ε β
  emitBinary : BinaryOp → β → β → BlastM σ ε β
  emitMux : β → β → β → BlastM σ ε β
  scalarConstant : σ → β → Option Bool
  structuralLevel : σ → β → Option Nat

export BitBackend (constant unsignedBit emitUnary emitBinary emitMux)

section

variable {σ ε β : Type} [BitBackend σ ε β]

def scalarConstant (bit : β) : BlastM σ ε (Option Bool) := do
  return BitBackend.scalarConstant (← get) bit

def structuralLevel (bit : β) : BlastM σ ε (Option Nat) := do
  return BitBackend.structuralLevel (← get) bit

variable (σ ε β) in
structure Meaning extends Growing σ (SynthError ε) β where
  /-- Only the backend's own errors stop an emission. -/
  refuses_backend {e : SynthError ε} : Refuses e → ∃ cause, e = .backend cause
  constant_emits (s : σ) (a : Bool) : toGrowing.Emits s (constant a) fun x t => Reads t x a
  unsigned_emits {s : σ} {x : β} {a : Bool} : Reads s x a →
    toGrowing.Emits s (unsignedBit x) fun y t => Reads t y a
  not_emits {s : σ} {x : β} {a : Bool} : Reads s x a →
    toGrowing.Emits s (emitUnary .bitNot x) fun y t => Reads t y (!a)
  and_emits {s : σ} {x y : β} {a b : Bool} : Reads s x a → Reads s y b →
    toGrowing.Emits s (emitBinary .bitAnd x y) fun z t => Reads t z (a && b)
  or_emits {s : σ} {x y : β} {a b : Bool} : Reads s x a → Reads s y b →
    toGrowing.Emits s (emitBinary .bitOr x y) fun z t => Reads t z (a || b)
  xor_emits {s : σ} {x y : β} {a b : Bool} : Reads s x a → Reads s y b →
    toGrowing.Emits s (emitBinary .bitXor x y) fun z t => Reads t z (a ^^ b)
  mux_emits {s : σ} {c x y : β} {a b d : Bool} : Reads s c a → Reads s x b → Reads s y d →
    toGrowing.Emits s (emitMux c x y) fun z t => Reads t z (if a then b else d)
  constant_reads {s : σ} {x : β} {a b : Bool} : Reads s x a →
    BitBackend.scalarConstant s x = some b → a = b
  constant_known (s : σ) (a : Bool) :
    toGrowing.Emits s (constant a) fun x t => BitBackend.scalarConstant t x = some a
  known_mono {s t : σ} {x : β} {a : Bool} : Grows s t →
    BitBackend.scalarConstant s x = some a → BitBackend.scalarConstant t x = some a

variable {W : Meaning σ ε β} {s : σ}

theorem scalarConstant_emits {x : β} {a : Bool} (h : W.Reads s x a) :
    W.Emits s (scalarConstant x) fun known _ => ∀ b, known = some b → b = a := by
  apply Emits.get
  intro _
  exact Emits.pure fun b hb => (W.constant_reads h hb).symm

theorem structuralLevel_emits (x : β) :
    W.Emits s (structuralLevel x) fun _ _ => True := by
  apply Emits.get
  intro _
  exact Emits.pure trivial

end

/-! The AXM backend. -/

open Logic Synth

namespace AxmBackend

def lift (m : GraphM Lit) : BlastM LogicBuilder Panic Lit := fun s => (m s).mapError .backend

instance : BitBackend LogicBuilder Panic Lit where
  constant value := pure (LogicBuilder.constant value)
  unsignedBit value := pure value
  emitUnary op arg := match op with
    | .bitNot | .logicalNot => pure (LogicBuilder.not arg)
    | .reductionAnd | .reductionOr | .reductionXor => pure arg
  emitBinary op left right := match op with
    | .bitAnd | .logicalAnd => lift (LogicGraph.and left right)
    | .bitOr | .logicalOr => lift (LogicGraph.or left right)
    | .bitXor | .ne => lift (LogicGraph.xor left right)
    | .eq => do return (← lift (LogicGraph.xor left right)).inverted
    | _ => throw (.invariant "non-Boolean operation reached AXM scalar emission")
  emitMux cond thenValue elseValue := lift (LogicGraph.mux cond thenValue elseValue)
  scalarConstant _ bit := if bit.node = 0 then some bit.isInverted else none
  structuralLevel graph bit := some ((graph.level bit.node).getD 0)

/-- The literal has this value when the inputs have the values of `g`. -/
def Reads (g : Nat → Bool) (s : LogicBuilder) (l : Lit) (a : Bool) : Prop :=
  Inv s ∧ Valid s l ∧ networkValue s.freeze g l = a

theorem Reads.denotes {g : Nat → Bool} {s : LogicBuilder} {l : Lit} {a : Bool} (h : Reads g s l a) :
    Denotes s l fun g => networkValue s.freeze g l := h.2.1.denotes

theorem reads_constant {g : Nat → Bool} {s : LogicBuilder} (hs : Inv s) (a : Bool) :
    Reads g s (LogicBuilder.constant a) a :=
  ⟨hs, (denotes_constant hs a).valid, (denotes_constant hs a).value g⟩

theorem Reads.grows {g : Nat → Bool} {s t : LogicBuilder} {l : Lit} {a : Bool} (hst : Grows s t)
    (h : Reads g s l a) : Reads g t l a := by
  have hlater := h.denotes.grows h.1 hst
  exact ⟨hst.inv, hlater.valid, (hlater.value g).trans h.2.2⟩

/-- What the literals of a graph stand for under an assignment of its inputs. -/
def growing (g : Nat → Bool) : Growing LogicBuilder (SynthError Panic) Lit where
  Good := Inv
  Grows := Grows
  Reads := Reads g
  Refuses e := e = .backend .capacity
  refl := Grows.refl
  trans := Grows.trans
  good h := h.inv
  mono := Reads.grows
  unique h h' := h.2.2.symm.trans h'.2.2

theorem lift_emits {g : Nat → Bool} {s : LogicBuilder} {m : GraphM Lit} {f : (Nat → Bool) → Bool}
    (h : Ensures s m (Builds s f) IsCapacity) :
    (growing g).Emits s (lift m) fun l t => Reads g t l (f g) := by
  intro _
  have hresult : Settles (m.run s) (fun r => Grows s r.2 ∧ Reads g r.2 r.1 (f g)) IsCapacity :=
    Settles.mono h fun r ⟨hgrows, hdenotes⟩ => ⟨hgrows, hgrows.inv, hdenotes.valid, hdenotes.value g⟩
  exact hresult.mapError fun e he => congrArg SynthError.backend he

def meaning (g : Nat → Bool) : Meaning LogicBuilder Panic Lit where
  toGrowing := growing g
  refuses_backend h := ⟨_, h⟩
  constant_emits s a hs := Ensures.pure ⟨Grows.refl hs, reads_constant hs a⟩
  unsigned_emits h := Emits.pure h
  not_emits {s x a} h := by
    have hnot : Reads g s x.inverted (!a) :=
      ⟨h.1, h.2.1.inverted, by rw [networkValue_inverted, h.2.2]⟩
    exact Emits.pure hnot
  and_emits hx hy := by
    have hand := lift_emits (g := g) (and_builds hx.1 hx.denotes hy.denotes)
    rwa [hx.2.2, hy.2.2] at hand
  or_emits hx hy := by
    have hor := lift_emits (g := g) (or_builds hx.1 hx.denotes hy.denotes)
    rwa [hx.2.2, hy.2.2] at hor
  xor_emits hx hy := by
    have hxor := lift_emits (g := g) (xor_builds hx.1 hx.denotes hy.denotes)
    rwa [hx.2.2, hy.2.2] at hxor
  mux_emits hc hx hy := by
    have hmux := lift_emits (g := g) (mux_builds hc.1 hc.denotes hx.denotes hy.denotes)
    rwa [hc.2.2, hx.2.2, hy.2.2] at hmux
  constant_reads {s x a b} h hb := by
    obtain ⟨hs, hvalid, hvalue⟩ := h
    by_cases hnode : x.node = 0
    · have hconstant : x = LogicBuilder.constant b := by
        simp only [BitBackend.scalarConstant, hnode, if_pos, Option.some.injEq] at hb
        cases x with
        | mk node phase =>
          subst hnode hb
          cases phase <;> rfl
      rw [← hvalue, hconstant, (denotes_constant hs b).value]
    · simp [BitBackend.scalarConstant, hnode] at hb
  constant_known s a hs := Ensures.pure ⟨Grows.refl hs, by cases a <;> rfl⟩
  known_mono _ h := h

end AxmBackend
end Opto.Bitblast
