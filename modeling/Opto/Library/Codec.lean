import Mathlib.Algebra.GroupWithZero.Nat
import Opto.Library.Outcome

/-!
# Decoding bytes

A decoder reads a tape of bytes from the front and records what it reserves memory for.
`Reads` says that it gets a value back from the bytes written for it, `Decodes` what bytes
it has read when it returns a value and that it never reserves more than the tape can hold.
-/

namespace Opto.Codec

/-- Room for so many items, each of so many bytes at least, with so many bytes left. -/
structure Reservation where
  items : Nat
  least : Nat
  left : Nat

structure Tape where
  remaining : List UInt8
  reserved : List Reservation

abbrev Decoder (ε α : Type) := EStateM ε Tape α

variable {ε α β : Type}

/-! Little-endian numbers. -/

def leBytes : Nat → Nat → List UInt8
  | 0, _ => []
  | width + 1, n => UInt8.ofNat n :: leBytes width (n / 256)

def leValue : List UInt8 → Nat
  | [] => 0
  | byte :: bytes => byte.toNat + 256 * leValue bytes

theorem length_leBytes (width n : Nat) : (leBytes width n).length = width := by
  induction width generalizing n with
  | zero => rfl
  | succ width ih => rw [leBytes, List.length_cons, ih]

theorem leValue_leBytes {width n : Nat} (h : n < 256 ^ width) : leValue (leBytes width n) = n := by
  induction width generalizing n with
  | zero =>
    rw [Nat.pow_zero] at h
    obtain rfl : n = 0 := by omega
    rfl
  | succ width ih =>
    have hrest : n / 256 < 256 ^ width := by
      rw [Nat.div_lt_iff_lt_mul (by decide), ← Nat.pow_succ]
      exact h
    rw [leBytes, leValue, ih hrest, UInt8.toNat_ofNat']
    exact Nat.mod_add_div n 256

theorem leValue_lt (bytes : List UInt8) : leValue bytes < 256 ^ bytes.length := by
  induction bytes with
  | nil => decide
  | cons byte bytes ih =>
    have hbyte := byte.toNat_lt
    rw [leValue, List.length_cons, Nat.pow_succ]
    omega

theorem leBytes_leValue (bytes : List UInt8) : leBytes bytes.length (leValue bytes) = bytes := by
  induction bytes with
  | nil => rfl
  | cons byte bytes ih =>
    have hbyte : byte.toNat < 256 := byte.toNat_lt
    have hlow : UInt8.ofNat (byte.toNat + 256 * leValue bytes) = byte := by
      apply UInt8.toNat_inj.mp
      rw [UInt8.toNat_ofNat']
      omega
    have hhigh : (byte.toNat + 256 * leValue bytes) / 256 = leValue bytes := by omega
    rw [List.length_cons, leBytes, leValue, hlow, hhigh, ih]

/-! Decoders. -/

/-- The next bytes, if there are so many. -/
def takeBytes (truncated : ε) (n : Nat) : Decoder ε (List UInt8) := do
  let tape ← get
  if n ≤ tape.remaining.length then
    set { tape with remaining := tape.remaining.drop n }
    return tape.remaining.take n
  else throw truncated

def readLe (truncated : ε) (width : Nat) : Decoder ε Nat := do
  return leValue (← takeBytes truncated width)

def reserve (items least : Nat) : Decoder ε Unit :=
  modify fun tape => { tape with reserved := tape.reserved ++ [⟨items, least, tape.remaining.length⟩] }

/-- One item after the other, with their numbers. -/
def timesFrom (m : Nat → Decoder ε α) (k : Nat) : Nat → Decoder ε (List α)
  | 0 => pure []
  | n + 1 => do
    let item ← m k
    let items ← timesFrom m (k + 1) n
    return item :: items

/-! Reading back what was written. -/

def Reads (m : Decoder ε α) (bytes : List UInt8) (a : α) : Prop :=
  ∀ rest reserved, ∃ reserved', m.run ⟨bytes ++ rest, reserved⟩ = .ok a ⟨rest, reserved'⟩

namespace Reads

theorem pure (a : α) : Reads (Pure.pure a : Decoder ε α) [] a := fun _ reserved => ⟨reserved, rfl⟩

theorem bind {m : Decoder ε α} {k : α → Decoder ε β} {bytes bytes' : List UInt8} {a : α} {b : β}
    (h : Reads m bytes a) (hk : Reads (k a) bytes' b) : Reads (m >>= k) (bytes ++ bytes') b := by
  intro rest reserved
  obtain ⟨reserved', hm⟩ := h (bytes' ++ rest) reserved
  obtain ⟨reserved'', hrest⟩ := hk rest reserved'
  refine ⟨reserved'', ?_⟩
  rw [List.append_assoc]
  simp only [EStateM.run, Bind.bind, EStateM.bind] at hm hrest ⊢
  rw [hm]
  exact hrest

theorem map {m : Decoder ε α} {bytes : List UInt8} {a : α} (h : Reads m bytes a) (f : α → β) :
    Reads (m >>= fun x => Pure.pure (f x)) bytes (f a) := by
  have hbind := h.bind (k := fun x => Pure.pure (f x)) (pure (f a))
  rwa [List.append_nil] at hbind

/-- A step that reads nothing. -/
theorem bind_nil {m : Decoder ε α} {k : α → Decoder ε β} {bytes : List UInt8} {a : α} {b : β}
    (h : Reads m [] a) (hk : Reads (k a) bytes b) : Reads (m >>= k) bytes b := h.bind hk

theorem takeBytes (truncated : ε) (bytes : List UInt8) : Reads (Codec.takeBytes truncated bytes.length) bytes bytes := by
  intro rest reserved
  have hle : bytes.length ≤ (bytes ++ rest).length := by
    rw [List.length_append]
    exact Nat.le_add_right _ _
  refine ⟨reserved, ?_⟩
  simp only [Codec.takeBytes, EStateM.run, Bind.bind, EStateM.bind, get, getThe, MonadStateOf.get, stateGet_eq,
    if_pos hle, List.drop_left, List.take_left]
  rfl

theorem readLe (truncated : ε) {width n : Nat} (h : n < 256 ^ width) :
    Reads (Codec.readLe truncated width) (leBytes width n) n := by
  have htake := takeBytes truncated (leBytes width n)
  rw [length_leBytes] at htake
  have hread := htake.map leValue
  rwa [leValue_leBytes h] at hread

theorem reserve (items least : Nat) : Reads (Codec.reserve items least : Decoder ε Unit) [] () :=
  fun _ _ => ⟨_, rfl⟩

theorem timesFrom {m : Nat → Decoder ε α} (encode : Nat → α → List UInt8) {xs : List α} {k : Nat}
    (h : ∀ i x, xs[i]? = some x → Reads (m (k + i)) (encode (k + i) x) x) :
    Reads (Codec.timesFrom m k xs.length) ((xs.zipIdx k).flatMap fun entry => encode entry.2 entry.1) xs := by
  induction xs generalizing k with
  | nil => exact pure []
  | cons x xs ih =>
    have hrest := ih (k := k + 1) fun i y hy => by
      have hitem := h (i + 1) y hy
      rwa [← Nat.add_assoc, Nat.add_right_comm] at hitem
    rw [List.zipIdx_cons, List.flatMap_cons]
    exact (h 0 x rfl).bind (hrest.map (x :: ·))

end Reads

/-! What a returned value was read from. -/

/-- Nothing was reserved that the bytes left could not hold. -/
def Safe (tape : Tape) : Prop := ∀ r ∈ tape.reserved, r.items * r.least ≤ r.left

def Decodes (m : Decoder ε α) (P : α → List UInt8 → Prop) : Prop :=
  ∀ tape, Safe tape → Outcome tape m
    (fun a tape' => Safe tape' ∧ ∃ bytes, tape.remaining = bytes ++ tape'.remaining ∧ P a bytes)
    (fun _ tape' => Safe tape')

namespace Decodes

theorem pure {P : α → List UInt8 → Prop} {a : α} (h : P a []) : Decodes (Pure.pure a : Decoder ε α) P :=
  fun _ hsafe => Outcome.pure ⟨hsafe, [], rfl, h⟩

theorem throw {P : α → List UInt8 → Prop} (e : ε) : Decodes (throw e : Decoder ε α) P :=
  fun _ hsafe => Outcome.throw hsafe

theorem bind {m : Decoder ε α} {k : α → Decoder ε β} {P : α → List UInt8 → Prop} {Q : β → List UInt8 → Prop}
    (h : Decodes m P) (hk : ∀ a bytes, P a bytes → Decodes (k a) fun b bytes' => Q b (bytes ++ bytes')) :
    Decodes (m >>= k) Q := by
  intro tape hsafe
  apply (h tape hsafe).bind
  · intro a tape' ⟨hsafe', bytes, hbytes, hP⟩
    apply (hk a bytes hP tape' hsafe').mono
    · intro b tape'' ⟨hsafe'', bytes', hbytes', hQ⟩
      exact ⟨hsafe'', bytes ++ bytes', by rw [hbytes, hbytes', List.append_assoc], hQ⟩
    · exact fun _ _ he => he
  · exact fun _ _ he => he

theorem mono {m : Decoder ε α} {P Q : α → List UInt8 → Prop} (h : Decodes m P)
    (hQ : ∀ a bytes, P a bytes → Q a bytes) : Decodes m Q := by
  intro tape hsafe
  apply (h tape hsafe).mono
  · exact fun a _ ⟨hsafe', bytes, hbytes, hP⟩ => ⟨hsafe', bytes, hbytes, hQ a bytes hP⟩
  · exact fun _ _ he => he

theorem takeBytes (truncated : ε) (n : Nat) :
    Decodes (Codec.takeBytes truncated n) fun taken bytes => bytes = taken ∧ taken.length = n := by
  intro tape hsafe
  rw [Codec.takeBytes]
  apply Outcome.get
  split_ifs with hle
  · refine ⟨hsafe, _, (List.take_append_drop n tape.remaining).symm, rfl, ?_⟩
    exact List.length_take_of_le hle
  · exact Outcome.throw hsafe

theorem readLe (truncated : ε) (width : Nat) :
    Decodes (Codec.readLe truncated width) fun n bytes => bytes = leBytes width n ∧ n < 256 ^ width := by
  apply (takeBytes truncated width).bind
  intro taken bytes ⟨htaken, hlength⟩
  apply pure
  rw [List.append_nil, htaken, ← hlength]
  exact ⟨(leBytes_leValue taken).symm, leValue_lt taken⟩

/-- Counted items that each come from the bytes written for them. -/
theorem timesFrom {m : Nat → Decoder ε α} {encode : Nat → α → List UInt8} {R : Nat → α → Prop}
    (h : ∀ k, Decodes (m k) fun x bytes => bytes = encode k x ∧ R k x) (k n : Nat) :
    Decodes (Codec.timesFrom m k n) fun xs bytes => xs.length = n ∧
      bytes = ((xs.zipIdx k).flatMap fun entry => encode entry.2 entry.1) ∧ ∀ entry ∈ xs.zipIdx k, R entry.2 entry.1 := by
  induction n generalizing k with
  | zero => exact pure ⟨rfl, rfl, by simp⟩
  | succ n ih =>
    apply (h k).bind
    intro x part ⟨hpart, hx⟩
    apply (ih (k + 1)).bind
    intro xs bytes ⟨hlength, hbytes, hxs⟩
    apply pure
    refine ⟨by rw [List.length_cons, hlength], ?_, ?_⟩
    · rw [List.append_nil, hpart, hbytes, List.zipIdx_cons, List.flatMap_cons]
    · rw [List.zipIdx_cons]
      exact List.forall_mem_cons.mpr ⟨hx, hxs⟩

end Decodes

end Opto.Codec
