import Opto.Mapped.Checked
import Opto.Mapped.Transaction

/-!
# The pins of every net

The links thread one list of pins for each net. Unlinking a pin takes it out of
its list and linking one appends it; neither fails on well formed lists and
neither touches the list of another net.
-/

namespace Opto.Mapped

abbrev Rows := NetId → List PinId

/-- Each net threads its row; a pin is in one row at most, and without links in none. -/
structure Threaded (n : MappedNetlist) (rows : Rows) : Prop where
  chain : ∀ net pins, n.netPins[net]? = some pins → Chain n.pinLinks pins.head pins.tail (rows net)
  outside : ∀ net, n.netPins.length ≤ net → rows net = []
  apart : ∀ net net' pin, pin ∈ rows net → pin ∈ rows net' → net = net'
  idle : ∀ pin links, (∀ net, pin ∉ rows net) → n.pinLinks[pin]? = some links → links = ⟨none, none⟩

namespace Threaded

variable {n : MappedNetlist} {rows : Rows}

theorem net_lt (h : Threaded n rows) {net : NetId} {pin : PinId} (hpin : pin ∈ rows net) :
    net < n.netPins.length := by
  by_contra hlt
  rw [h.outside net (Nat.le_of_not_lt hlt)] at hpin
  cases hpin

theorem pin_lt (h : Threaded n rows) {net : NetId} {pin : PinId} (hpin : pin ∈ rows net) :
    pin < n.pinLinks.length :=
  (h.chain net _ (List.getElem?_eq_getElem (h.net_lt hpin))).lt hpin

theorem nodup (h : Threaded n rows) (net : NetId) : (rows net).Nodup := by
  by_cases hlt : net < n.netPins.length
  · exact (h.chain net _ (List.getElem?_eq_getElem hlt)).nodup
  · rw [h.outside net (Nat.le_of_not_lt hlt)]
    exact List.nodup_nil

/-- Only the link tables matter. -/
theorem congr (h : Threaded n rows) {n' : MappedNetlist} (hlinks : n'.pinLinks = n.pinLinks)
    (hpins : n'.netPins = n.netPins) : Threaded n' rows :=
  ⟨by rw [hlinks, hpins]; exact h.chain, by rw [hpins]; exact h.outside, h.apart,
    by rw [hlinks]; exact h.idle⟩

end Threaded

/-- Replaces the row of one net. -/
def Rows.put (rows : Rows) (net : NetId) (row : List PinId) : Rows :=
  fun other => if other = net then row else rows other

@[simp] theorem Rows.put_self (rows : Rows) (net : NetId) (row : List PinId) :
    rows.put net row net = row := if_pos rfl

theorem Rows.put_of_ne (rows : Rows) {net other : NetId} (h : other ≠ net) (row : List PinId) :
    rows.put net row other = rows other := if_neg h

namespace Threaded

variable {n : MappedNetlist} {rows : Rows} {net : NetId} {pin : PinId} {xs ys : List PinId}

theorem unlink (h : Threaded n rows) (hrow : rows net = xs ++ pin :: ys) :
    Threaded { n with
      pinLinks := Opto.unlink n.pinLinks xs.getLast? ys.head? pin
      netPins := n.netPins.modify net fun pins =>
        ⟨if xs.getLast?.isSome then pins.head else ys.head?,
          if ys.head?.isSome then pins.tail else xs.getLast?⟩ } (rows.put net (xs ++ ys)) := by
  have hmem : ∀ p, p ∈ rows net ↔ p = pin ∨ p ∈ xs ++ ys := by
    intro p
    rw [hrow, List.mem_append, List.mem_cons, List.mem_append, or_left_comm]
  have hpin : pin ∈ rows net := (hmem pin).mpr (.inl rfl)
  have hnot : pin ∉ xs ++ ys := by
    have hnodup := hrow ▸ h.nodup net
    exact (List.nodup_middle.mp hnodup).notMem
  have hprevious : ∀ p, xs.getLast? = some p → p ∈ rows net := fun p hp =>
    (hmem p).mpr (.inr (List.mem_append_left _ (List.mem_of_getLast? hp)))
  have hnext : ∀ p, ys.head? = some p → p ∈ rows net := fun p hp =>
    (hmem p).mpr (.inr (List.mem_append_right _ (List.mem_of_head? hp)))
  have hother : ∀ p, p ∉ rows net →
      (Opto.unlink n.pinLinks xs.getLast? ys.head? pin)[p]? = n.pinLinks[p]? := by
    intro p hp
    apply getElem?_unlink_of_ne
    · exact fun he => hp (he ▸ hpin)
    · exact fun he => hp (hprevious p he)
    · exact fun he => hp (hnext p he)
  have hsub : ∀ k p, p ∈ rows.put net (xs ++ ys) k → p ∈ rows k := by
    intro k p hp
    by_cases hk : k = net
    · subst hk
      rw [Rows.put_self] at hp
      exact (hmem p).mpr (.inr hp)
    · rwa [rows.put_of_ne hk] at hp
  constructor
  · intro k pins hpins
    by_cases hk : k = net
    · subst hk
      rw [List.getElem?_modify_eq] at hpins
      obtain ⟨old, hold, rfl⟩ := Option.map_eq_some_iff.mp hpins
      rw [Rows.put_self]
      exact (hrow ▸ h.chain k old hold).remove
    · rw [List.getElem?_modify_ne _ _ (Ne.symm hk)] at hpins
      rw [rows.put_of_ne hk]
      apply (h.chain k pins hpins).congr
      exact fun p hp => hother p fun hn => hk (h.apart k net p hp hn)
  · intro k hk
    rw [List.length_modify] at hk
    have hne : k ≠ net := fun he => absurd (h.net_lt hpin) (Nat.not_lt.mpr (he ▸ hk))
    rw [rows.put_of_ne hne]
    exact h.outside k hk
  · exact fun a b p ha hb => h.apart a b p (hsub a p ha) (hsub b p hb)
  · intro p links hp hlinks
    by_cases he : p = pin
    · subst he
      rw [getElem?_unlink_self (h.pin_lt hpin)] at hlinks
      exact (Option.some.inj hlinks).symm
    · have hfree : ∀ k, p ∉ rows k := by
        intro k hk
        by_cases hkn : k = net
        · subst hkn
          apply hp k
          rw [Rows.put_self]
          exact ((hmem p).mp hk).resolve_left he
        · apply hp k
          rwa [rows.put_of_ne hkn]
      rw [hother p (hfree net)] at hlinks
      exact h.idle p links hfree hlinks

theorem link (h : Threaded n rows) (hpin : ∀ net, pin ∉ rows net) (hlt : pin < n.pinLinks.length)
    {pins : NetPins} (hpins : n.netPins[net]? = some pins) :
    Threaded { n with
      pinLinks := linkLast n.pinLinks pins.tail pin
      netPins := n.netPins.modify net fun pins =>
        ⟨if pins.tail.isSome then pins.head else some pin, some pin⟩ }
      (rows.put net (rows net ++ [pin])) := by
  have hchain := h.chain net pins hpins
  have htail : ∀ p, pins.tail = some p → p ∈ rows net := by
    intro p hp
    rw [hchain.tail] at hp
    exact List.mem_of_getLast? hp
  have hother : ∀ p, p ∉ rows net → p ≠ pin →
      (linkLast n.pinLinks pins.tail pin)[p]? = n.pinLinks[p]? := by
    intro p hp hne
    exact getElem?_linkLast_of_ne (Ne.symm hne) fun he => hp (htail p he)
  have hsub : ∀ k p, p ∈ rows.put net (rows net ++ [pin]) k → p ∈ rows k ∨ p = pin ∧ k = net := by
    intro k p hp
    by_cases hk : k = net
    · subst hk
      rw [Rows.put_self, List.mem_append, List.mem_singleton] at hp
      exact hp.imp_right fun he => ⟨he, rfl⟩
    · rw [rows.put_of_ne hk] at hp
      exact .inl hp
  constructor
  · intro k row hk
    by_cases he : k = net
    · subst he
      rw [List.getElem?_modify_eq, hpins] at hk
      cases hk
      rw [Rows.put_self]
      exact hchain.push (hpin k) hlt
    · rw [List.getElem?_modify_ne _ _ (Ne.symm he)] at hk
      rw [rows.put_of_ne he]
      apply (h.chain k row hk).congr
      intro p hp
      exact hother p (fun hn => he (h.apart k net p hp hn)) fun hpe => hpin k (hpe ▸ hp)
  · intro k hk
    rw [List.length_modify] at hk
    have hne : k ≠ net := by
      rintro rfl
      exact absurd (List.getElem?_eq_some_iff.mp hpins).1 (Nat.not_lt.mpr hk)
    rw [rows.put_of_ne hne]
    exact h.outside k hk
  · intro a b p ha hb
    rcases hsub a p ha with hold | ⟨he, hnet⟩ <;> rcases hsub b p hb with hold' | ⟨he', hnet'⟩
    · exact h.apart a b p hold hold'
    · exact absurd (he' ▸ hold) (hpin a)
    · exact absurd (he ▸ hold') (hpin b)
    · exact hnet.trans hnet'.symm
  · intro p links hp hlinks
    have hne : p ≠ pin := by
      rintro rfl
      exact hp net (by rw [Rows.put_self]; exact List.mem_append_right _ List.mem_cons_self)
    have hfree : ∀ k, p ∉ rows k := by
      intro k hk
      apply hp k
      by_cases he : k = net
      · subst he
        rw [Rows.put_self]
        exact List.mem_append_left _ hk
      · rwa [rows.put_of_ne he]
    rw [hother p (hfree net) hne] at hlinks
    exact h.idle p links hfree hlinks

end Threaded

/-- Only links and list ends differ. -/
structure Relinked (n n' : MappedNetlist) : Prop where
  rest : n' = { n with pinLinks := n'.pinLinks, netPins := n'.netPins }
  pinLinks : n'.pinLinks.length = n.pinLinks.length
  netPins : n'.netPins.length = n.netPins.length

/-! Editing steps that cannot fail. -/

/-- A step changes the netlist as `P` says and fails only if `E` holds. -/
def Edits (s : Editing) (m : Except Panic Editing) (P : MappedNetlist → Prop) (E : Prop) : Prop :=
  Settles m (fun s' => P s'.netlist ∧ s'.applied.renamedNets = s.applied.renamedNets) fun _ => E

namespace Edits

variable {s : Editing} {P Q : MappedNetlist → Prop} {E F : Prop}

theorem pure (h : P s.netlist) : Edits s (Except.ok s) P E := ⟨h, rfl⟩

theorem mono {m : Except Panic Editing} (h : Edits s m P E) (hP : ∀ n, P n → Q n) : Edits s m Q E :=
  Settles.mono h fun _ ⟨hp, hr⟩ => ⟨hP _ hp, hr⟩

theorem bind {m : Except Panic Editing} {k : Editing → Except Panic Editing} (h : Edits s m P E)
    (hk : ∀ s', P s'.netlist → Edits s' (k s') Q E) : Edits s (m >>= k) Q E :=
  Settles.bind h fun s' ⟨hp, hr⟩ => Settles.mono (hk s' hp) fun _ ⟨hq, hr'⟩ => ⟨hq, hr'.trans hr⟩

theorem weaken {m : Except Panic Editing} (h : Edits s m P False) : Edits s m P E :=
  Settles.weaken h fun _ he => he.elim

theorem after {t : Editing} {m : Except Panic Editing}
    (hr : t.applied.renamedNets = s.applied.renamedNets) (h : Edits t m P E) : Edits s m P E :=
  Settles.mono h fun _ ⟨hp, hr'⟩ => ⟨hp, hr'.trans hr⟩

/-- A lookup that succeeds. -/
theorem read {α : Type} {m : Except Panic α} {k : α → Except Panic Editing} {a : α}
    (h : m = .ok a) (hk : Edits s (k a) P E) : Edits s (m >>= k) P E := by
  rw [h]
  exact hk

/-- A loop keeps an invariant of the entries it has passed. -/
theorem foldlM {β : Type} {f : Editing → β → Except Panic Editing} {xs : List β}
    (invariant : List β → MappedNetlist → Prop) (h : invariant [] s.netlist)
    (hstep : ∀ done x rest, done ++ x :: rest = xs → ∀ s, invariant done s.netlist →
      Edits s (f s x) (invariant (done ++ [x])) E) :
    Edits s (xs.foldlM f s) (invariant xs) E := by
  apply Settles.foldlM_split (fun (done : List β) (s' : Editing) => invariant done s'.netlist ∧
    s'.applied.renamedNets = s.applied.renamedNets)
  · exact ⟨h, rfl⟩
  · rintro done x rest hx s' ⟨hinv, hr⟩
    exact Settles.mono (hstep done x rest hx s' hinv) fun _ ⟨hinv', hr'⟩ => ⟨hinv', hr'.trans hr⟩

end Edits

theorem rowAt_eq {α : Type} {rows : List α} {i : Nat} {row : α} (h : rows[i]? = some row) :
    rowAt rows i = .ok row := by
  rw [rowAt, h]

theorem rowAt_lt {α : Type} {rows : List α} {i : Nat} (h : i < rows.length) :
    rowAt rows i = .ok rows[i] := rowAt_eq (List.getElem?_eq_getElem h)

namespace Editing

variable {s : Editing}

/-! Saving a row leaves the netlist as it is. -/

theorem saveNet_edits {net : NetId} (h : net < s.netlist.nets.length) :
    Edits s (s.saveNet net) (· = s.netlist) False := by
  rw [saveNet]
  split_ifs
  · apply Edits.read (rowAt_lt h)
    exact ⟨rfl, rfl⟩
  · exact Edits.pure rfl

theorem saveNetPins_edits {net : NetId} (h : net < s.netlist.netPins.length) :
    Edits s (s.saveNetPins net) (· = s.netlist) False := by
  rw [saveNetPins]
  split_ifs
  · apply Edits.read (rowAt_lt h)
    exact ⟨rfl, rfl⟩
  · exact Edits.pure rfl

theorem savePinLinks_edits {pin : PinId} (h : pin < s.netlist.pinLinks.length) :
    Edits s (s.savePinLinks pin) (· = s.netlist) False := by
  rw [savePinLinks]
  split_ifs
  · apply Edits.read (rowAt_lt h)
    exact ⟨rfl, rfl⟩
  · exact Edits.pure rfl

theorem saveCell_edits {cell : CellId} (h : cell < s.netlist.cells.length) :
    Edits s (s.saveCell cell) (· = s.netlist) False := by
  apply Edits.read (rowAt_lt h)
  exact ⟨rfl, rfl⟩

theorem saveConnection_edits {pin : PinId} (h : pin < s.netlist.connections.length) :
    Edits s (s.saveConnection pin) (· = s.netlist) False := by
  apply Edits.read (rowAt_lt h)
  exact ⟨rfl, rfl⟩

/-! Writing a row. -/

theorem modifyRow_eq {α : Type} {rows : List α} {i : Nat} (h : i < rows.length) (f : α → α) :
    modifyRow rows i f = .ok (rows.modify i f) := if_pos h

theorem modifyLinks_edits {pin : PinId} (h : pin < s.netlist.pinLinks.length)
    (f : PinLinks → PinLinks) : Edits s (s.modifyLinks pin f)
      (· = { s.netlist with pinLinks := s.netlist.pinLinks.modify pin f }) False := by
  apply Edits.read (modifyRow_eq h f)
  exact ⟨rfl, rfl⟩

theorem modifyNetPins_edits {net : NetId} (h : net < s.netlist.netPins.length)
    (f : NetPins → NetPins) : Edits s (s.modifyNetPins net f)
      (· = { s.netlist with netPins := s.netlist.netPins.modify net f }) False := by
  apply Edits.read (modifyRow_eq h f)
  exact ⟨rfl, rfl⟩

theorem modifyNet_edits {net : NetId} (h : net < s.netlist.nets.length) (f : NetSlot → NetSlot) :
    Edits s (s.modifyNet net f) (· = { s.netlist with nets := s.netlist.nets.modify net f }) False := by
  apply Edits.read (modifyRow_eq h f)
  exact ⟨rfl, rfl⟩

theorem modifyCell_edits {cell : CellId} (h : cell < s.netlist.cells.length)
    (f : CellSlot → CellSlot) : Edits s (s.modifyCell cell f)
      (· = { s.netlist with cells := s.netlist.cells.modify cell f }) False := by
  apply Edits.read (modifyRow_eq h f)
  exact ⟨rfl, rfl⟩

theorem modifyConnection_edits {pin : PinId} (h : pin < s.netlist.connections.length)
    (f : PinConnection → PinConnection) : Edits s (s.modifyConnection pin f)
      (· = { s.netlist with connections := s.netlist.connections.modify pin f }) False := by
  apply Edits.read (modifyRow_eq h f)
  exact ⟨rfl, rfl⟩

/-! The list operations. -/

theorem writeNeighbour_edits {net : NetId} {neighbour : Option PinId}
    (hnet : net < s.netlist.netPins.length)
    (hneighbour : ∀ pin, neighbour = some pin → pin < s.netlist.pinLinks.length)
    (f : PinLinks → PinLinks) (g : NetPins → NetPins) :
    Edits s (s.writeNeighbour neighbour f net g) (· = { s.netlist with
      pinLinks := modifyAt s.netlist.pinLinks neighbour f
      netPins := if neighbour.isSome then s.netlist.netPins else s.netlist.netPins.modify net g })
      False := by
  cases neighbour with
  | none => exact modifyNetPins_edits hnet g
  | some pin =>
    have hpin := hneighbour pin rfl
    apply Edits.bind (savePinLinks_edits hpin)
    intro s' hs
    rw [← hs] at hpin ⊢
    exact modifyLinks_edits hpin f

theorem unlinkPin_edits {rows : Rows} (h : Threaded s.netlist rows) {net : NetId} {pin : PinId}
    {connection : PinConnection} (hconnection : s.netlist.connections[pin]? = some connection)
    (hsignal : connection.signal = .net net) (hpin : pin ∈ rows net) :
    Edits s (s.unlinkPin pin) (fun n' => Relinked s.netlist n' ∧
      Threaded n' (rows.put net ((rows net).erase pin))) False := by
  obtain ⟨xs, ys, hrow⟩ := List.append_of_mem hpin
  have hnet := h.net_lt hpin
  have hlt := h.pin_lt hpin
  have hchain := hrow ▸ h.chain net _ (List.getElem?_eq_getElem hnet)
  have hnot : pin ∉ xs := by
    have hnodup := List.nodup_append.mp (hrow ▸ h.nodup net)
    exact fun hx => hnodup.2.2 pin hx pin List.mem_cons_self rfl
  have herase : (rows net).erase pin = xs ++ ys := by
    rw [hrow, List.erase_append_right _ hnot, List.erase_cons_head]
  have hprevious : ∀ p, xs.getLast? = some p → p < s.netlist.pinLinks.length := fun p hp =>
    hchain.lt (List.mem_append_left _ (List.mem_of_getLast? hp))
  have hnext : ∀ p, ys.head? = some p → p < s.netlist.pinLinks.length := fun p hp =>
    hchain.lt (List.mem_append_right _ (List.mem_cons_of_mem _ (List.mem_of_head? hp)))
  have hthreaded := herase ▸ h.unlink hrow
  rw [unlinkPin]
  apply Edits.read (rowAt_eq hconnection)
  rw [hsignal]
  apply Edits.read (rowAt_eq hchain.neighbours)
  apply Edits.bind (saveNetPins_edits hnet)
  intro s₁ h₁
  apply Edits.bind (savePinLinks_edits (h₁ ▸ hlt))
  intro s₂ h₂
  rw [h₁] at h₂
  apply Edits.bind (writeNeighbour_edits (h₂ ▸ hnet) (h₂ ▸ hprevious) _ _)
  intro s₃ h₃
  rw [h₂] at h₃
  have hnet₃ : net < s₃.netlist.netPins.length := by
    rw [h₃]
    dsimp only
    split_ifs
    · exact hnet
    · rwa [List.length_modify]
  have hlinks₃ : s₃.netlist.pinLinks.length = s.netlist.pinLinks.length := by
    rw [h₃]
    exact length_modifyAt ..
  apply Edits.bind (writeNeighbour_edits hnet₃ (fun p hp => hlinks₃ ▸ hnext p hp) _ _)
  intro s₄ h₄
  rw [h₃] at h₄
  have hlt₄ : pin < s₄.netlist.pinLinks.length := by
    rw [h₄]
    dsimp only
    rw [length_modifyAt, length_modifyAt]
    exact hlt
  apply Edits.mono (modifyLinks_edits hlt₄ _)
  rintro _ rfl
  rw [h₄]
  have hends : (if ys.head?.isSome then
      (if xs.getLast?.isSome then s.netlist.netPins
        else s.netlist.netPins.modify net fun pins => { pins with head := ys.head? })
      else (if xs.getLast?.isSome then s.netlist.netPins
        else s.netlist.netPins.modify net fun pins => { pins with head := ys.head? }).modify net
          fun pins => { pins with tail := xs.getLast? }) =
      s.netlist.netPins.modify net fun pins =>
        ⟨if xs.getLast?.isSome then pins.head else ys.head?,
          if ys.head?.isSome then pins.tail else xs.getLast?⟩ := by
    apply List.ext_getElem?
    intro k
    by_cases hk : net = k
    · subst hk
      split_ifs <;> simp [List.getElem?_modify_eq, Function.comp_def]
    · split_ifs <;> simp [List.getElem?_modify_ne, hk]
  rw [← hends] at hthreaded
  refine ⟨⟨rfl, ?_, ?_⟩, hthreaded⟩
  · exact length_unlink ..
  · dsimp only
    rw [hends, List.length_modify]

theorem linkPin_edits {rows : Rows} (h : Threaded s.netlist rows) {net : NetId} {pin : PinId}
    (hnet : net < s.netlist.netPins.length) (hlt : pin < s.netlist.pinLinks.length)
    (hpin : ∀ net, pin ∉ rows net) :
    Edits s (s.linkPin net pin) (fun n' => Relinked s.netlist n' ∧
      Threaded n' (rows.put net (rows net ++ [pin]))) False := by
  have hpins := List.getElem?_eq_getElem hnet
  have hchain := h.chain net _ hpins
  generalize s.netlist.netPins[net] = pins at hpins hchain
  have htail : ∀ p, pins.tail = some p → p < s.netlist.pinLinks.length := by
    intro p hp
    rw [hchain.tail] at hp
    exact hchain.lt (List.mem_of_getLast? hp)
  have hthreaded := h.link hpin hlt hpins
  rw [linkPin]
  apply Edits.read (rowAt_eq hpins)
  apply Edits.bind (saveNetPins_edits hnet)
  intro s₁ h₁
  apply Edits.bind (savePinLinks_edits (h₁ ▸ hlt))
  intro s₂ h₂
  rw [h₁] at h₂
  apply Edits.bind (writeNeighbour_edits (h₂ ▸ hnet) (h₂ ▸ htail) _ _)
  intro s₃ h₃
  rw [h₂] at h₃
  have hlt₃ : pin < s₃.netlist.pinLinks.length := by
    rw [h₃]
    dsimp only
    rw [length_modifyAt]
    exact hlt
  apply Edits.bind (modifyLinks_edits hlt₃ _)
  intro s₄ h₄
  rw [h₃] at h₄
  have hnet₄ : net < s₄.netlist.netPins.length := by
    rw [h₄]
    dsimp only
    split_ifs
    · exact hnet
    · rwa [List.length_modify]
  apply Edits.mono (modifyNetPins_edits hnet₄ _)
  rintro _ rfl
  rw [h₄]
  have hends : (if pins.tail.isSome then s.netlist.netPins
      else s.netlist.netPins.modify net fun pins => { pins with head := some pin }).modify net
        (fun pins => { pins with tail := some pin }) =
      s.netlist.netPins.modify net fun pins =>
        ⟨if pins.tail.isSome then pins.head else some pin, some pin⟩ := by
    apply List.ext_getElem?
    intro k
    by_cases hk : net = k
    · subst hk
      split_ifs with ht <;> simp [List.getElem?_modify_eq, hpins, ht]
    · split_ifs <;> simp [List.getElem?_modify_ne, hk]
  rw [← hends] at hthreaded
  refine ⟨⟨rfl, ?_, ?_⟩, hthreaded⟩
  · exact length_linkLast ..
  · dsimp only
    rw [hends, List.length_modify]

theorem linkPin_unknown {net : NetId} (h : s.netlist.netPins.length ≤ net) (pin : PinId) :
    s.linkPin net pin = .error .index := by
  rw [linkPin, rowAt, List.getElem?_eq_none h]
  rfl

end Editing

end Opto.Mapped
