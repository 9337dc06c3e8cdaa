import Xv6.Lib.Circle

/-!
# Circular doubly linked lists

`Links` are the two pointers of every node. `Ring k h l` says that they form one circular list
through `h` and then the nodes of `l`, each once. `unlink` and `pushFront` are the pointer
assignments that take a node out and put one behind `h`; what they do to the list is `Ring.unlink`
and `Ring.pushFront`. Both are proved for one direction of the pointers and used for the other on
the reversed list.
-/

namespace Xv6.Lib

variable {α : Type*} {f : α → α} {c h x : α} {l l₁ l₂ : List α}

/-! ### One direction -/

/-- The first node is the last one the other way round. -/
theorem getLast_cons_reverse (h : α) (l : List α) :
    (h :: l.reverse).getLast (List.cons_ne_nil _ _) = l.headD h := by
  cases l with
  | nil => rfl
  | cons x l => simp

variable [DecidableEq α]

theorem Linked.skip (hl : l₁ ≠ []) (hf : Linked f (l₁ ++ x :: l₂) c) (hnd : (l₁ ++ x :: l₂).Nodup) :
    Linked (Function.update f (l₁.getLast hl) (f x)) (l₁ ++ l₂) c := by
  have hx : f x = l₂.headD c := hf.next_eq
  obtain ⟨l, p, rfl⟩ : ∃ l p, l₁ = l ++ [p] := ⟨_, _, (List.dropLast_append_getLast hl).symm⟩
  rw [List.append_assoc] at hf hnd ⊢
  rw [List.getLast_append_singleton]
  have hp : p ∉ l ∧ p ∉ l₂ := by
    simp only [List.cons_append, List.nil_append, List.nodup_append, List.nodup_cons,
      List.mem_cons, not_or] at hnd
    exact ⟨fun hmem => hnd.2.2 p hmem p (.inl rfl) rfl, hnd.2.1.1.2⟩
  obtain ⟨hbefore, -, -, hafter⟩ := linked_append.mp hf
  refine linked_append.mpr ⟨hbefore.congr fun y hy => ?_, ?_, hafter.congr fun y hy => ?_⟩
  · exact Function.update_of_ne (ne_of_mem_of_not_mem hy hp.1) _ _
  · rw [Function.update_self]
    exact hx
  · exact Function.update_of_ne (ne_of_mem_of_not_mem hy hp.2) _ _

/-- A new node is put behind the last one. -/
theorem Linked.extend (hl : l ≠ []) (hf : Linked f l c) (hx : x ∉ l) (hnd : l.Nodup) :
    Linked (Function.update (Function.update f x c) (l.getLast hl) x) (l ++ [x]) c := by
  obtain ⟨m, p, rfl⟩ : ∃ m p, l = m ++ [p] := ⟨_, _, (List.dropLast_append_getLast hl).symm⟩
  rw [List.getLast_append_singleton]
  have hp : p ∉ m := fun hmem => (List.nodup_append.mp hnd).2.2 p hmem p List.mem_cons_self rfl
  have hxm : x ∉ m := fun hmem => hx (List.mem_append_left _ hmem)
  have hxp : x ≠ p := fun e => hx (by simp [e])
  rw [List.append_assoc]
  refine linked_append.mpr ⟨(linked_append.mp hf).1.congr fun y hy => ?_, ?_, ?_, trivial⟩
  · rw [Function.update_of_ne (ne_of_mem_of_not_mem hy hp),
      Function.update_of_ne (ne_of_mem_of_not_mem hy hxm)]
  · rw [Function.update_self]
    rfl
  · rw [Function.update_of_ne hxp, Function.update_self]
    rfl

/-- A new node is put behind the first one. -/
theorem Linked.second (hf : Linked f (h :: l) c) (hx : x ∉ h :: l) (hnd : (h :: l).Nodup) :
    Linked (Function.update (Function.update f x (f h)) h x) (h :: x :: l) c := by
  have hxh : x ≠ h := fun e => hx (e ▸ List.mem_cons_self)
  refine ⟨Function.update_self .., ?_, hf.2.congr fun y hy => ?_⟩
  · rw [Function.update_of_ne hxh, Function.update_self]
    exact hf.1
  · have hyh : y ≠ h := ne_of_mem_of_not_mem hy (List.nodup_cons.mp hnd).1
    have hyx : y ≠ x := ne_of_mem_of_not_mem (List.mem_cons_of_mem h hy) hx
    rw [Function.update_of_ne hyh, Function.update_of_ne hyx]

/-! ### Both directions -/

/-- The pointers of the nodes. -/
structure Links (α : Type*) where
  /-- The node behind. -/
  next : α → α
  /-- The node before. -/
  prev : α → α

namespace Links

/-- `x->next = y`. -/
def setNext (k : Links α) (x y : α) : Links α := { k with next := Function.update k.next x y }

/-- `x->prev = y`. -/
def setPrev (k : Links α) (x y : α) : Links α := { k with prev := Function.update k.prev x y }

/-- Takes a node out: `x->next->prev = x->prev; x->prev->next = x->next`. -/
def unlink (k : Links α) (x : α) : Links α :=
  let k₁ := k.setPrev (k.next x) (k.prev x)
  k₁.setNext (k₁.prev x) (k₁.next x)

/-- Puts a node behind `h`: `x->next = h->next; x->prev = h; h->next->prev = x; h->next = x`. -/
def pushFront (k : Links α) (h x : α) : Links α :=
  let k₁ := k.setNext x (k.next h)
  let k₂ := k₁.setPrev x h
  let k₃ := k₂.setPrev (k₂.next h) x
  k₃.setNext h x

/-- One circular list through `h` and the nodes of `l`, each once. -/
structure Ring (k : Links α) (h : α) (l : List α) : Prop where
  /-- The nodes behind `h` are those of `l`, and behind the last one is `h`. -/
  next : Linked k.next (h :: l) h
  /-- The nodes before `h` are those of `l` from the last one on. -/
  prev : Linked k.prev (h :: l.reverse) h
  /-- No node comes twice. -/
  nodup : (h :: l).Nodup

variable {k : Links α}

omit [DecidableEq α] in
theorem Ring.nodup_reverse (hk : k.Ring h l) : (h :: l.reverse).Nodup := by
  simpa using hk.nodup

omit [DecidableEq α] in
theorem ring_nil (hn : k.next h = h) (hp : k.prev h = h) : k.Ring h [] :=
  ⟨⟨hn, trivial⟩, ⟨hp, trivial⟩, List.nodup_singleton h⟩

/-- The list without the node that is taken out. -/
theorem Ring.unlink (hk : k.Ring h (l₁ ++ x :: l₂)) : (k.unlink x).Ring h (l₁ ++ l₂) := by
  have hn : Linked k.next ((h :: l₁) ++ x :: l₂) h := hk.next
  have hp : Linked k.prev ((h :: l₂.reverse) ++ x :: l₁.reverse) h := by
    have := hk.prev
    rwa [List.reverse_append, List.reverse_cons, List.append_assoc] at this
  have hnd : ((h :: l₁) ++ x :: l₂).Nodup := hk.nodup
  have hndp : ((h :: l₂.reverse) ++ x :: l₁.reverse).Nodup := by
    have := hk.nodup_reverse
    rwa [List.reverse_append, List.reverse_cons, List.append_assoc] at this
  -- the neighbours of `x`
  have hnext : k.next x = (h :: l₂.reverse).getLast (List.cons_ne_nil _ _) := by
    rw [getLast_cons_reverse]
    exact hn.next_eq
  have hprev : k.prev x = (h :: l₁).getLast (List.cons_ne_nil _ _) := by
    have hrev := getLast_cons_reverse h l₁.reverse
    rw [List.reverse_reverse] at hrev
    rw [hrev]
    exact hp.next_eq
  have hne : k.next x ≠ x := by
    rw [hnext]
    intro e
    exact (List.nodup_append.mp hndp).2.2 _ (List.getLast_mem _) x List.mem_cons_self e
  have hlinks : k.unlink x = ⟨Function.update k.next (k.prev x) (k.next x),
      Function.update k.prev (k.next x) (k.prev x)⟩ := by
    simp only [Links.unlink, setNext, setPrev, Function.update_of_ne hne.symm]
  rw [hlinks]
  refine ⟨?_, ?_, ?_⟩
  · rw [hprev]
    exact hn.skip _ hnd
  · rw [hnext, List.reverse_append]
    exact hp.skip _ hndp
  · have hsub : (h :: (l₁ ++ l₂)).Sublist ((h :: l₁) ++ x :: l₂) :=
      (List.Sublist.refl (h :: l₁)).append (List.sublist_cons_self x l₂)
    exact hnd.sublist hsub

theorem Ring.pushFront (hk : k.Ring h l) (hx : x ∉ h :: l) : (k.pushFront h x).Ring h (x :: l) := by
  have hhx : h ≠ x := fun e => hx (e ▸ List.mem_cons_self)
  have hxr : x ∉ h :: l.reverse := by simpa using hx
  have hnext : k.next h = (h :: l.reverse).getLast (List.cons_ne_nil _ _) := by
    rw [getLast_cons_reverse]
    exact hk.next.1
  have hlinks : k.pushFront h x = ⟨Function.update (Function.update k.next x (k.next h)) h x,
      Function.update (Function.update k.prev x h) (k.next h) x⟩ := by
    simp only [Links.pushFront, setNext, setPrev, Function.update_of_ne hhx]
  rw [hlinks]
  refine ⟨hk.next.second hx hk.nodup, ?_, ?_⟩
  · rw [hnext, List.reverse_cons]
    exact hk.prev.extend _ hxr hk.nodup_reverse
  · have hnd := List.nodup_cons.mp hk.nodup
    have hxl : x ∉ l := fun hmem => hx (List.mem_cons_of_mem h hmem)
    refine List.nodup_cons.mpr ⟨?_, List.nodup_cons.mpr ⟨hxl, hnd.2⟩⟩
    simpa only [List.mem_cons, not_or] using ⟨hhx, hnd.1⟩

end Links

end Xv6.Lib
