import Mathlib.Logic.Relation
import Mathlib.Order.Bounds.Basic
import StackLift.Listing.Naming

namespace StackLift

namespace Forest

theorem root_eq_self {f : Forest} {a : UInt32} (h : f.parent a = a) : f.root a = a := by
  rw [root, if_pos h]

theorem root_parent (f : Forest) (a : UInt32) : f.root (f.parent a) = f.root a := by
  by_cases h : f.parent a = a
  · rw [h]
  · have hroot : f.root a = f.root (f.parent a) := by
      conv => lhs; rw [root, if_neg h]
    exact hroot.symm

theorem parent_root (f : Forest) (a : UInt32) : f.parent (f.root a) = f.root a := by
  fun_induction f.root a with
  | case1 a h => exact h
  | case2 a h ih => exact ih

theorem root_root (f : Forest) (a : UInt32) : f.root (f.root a) = f.root a :=
  root_eq_self (f.parent_root a)

theorem root_empty (a : UInt32) : empty.root a = a :=
  root_eq_self rfl

theorem root_le (f : Forest) (a : UInt32) : f.root a ≤ a := by
  fun_induction f.root a with
  | case1 a h => exact UInt32.le_refl a
  | case2 a h ih => exact UInt32.le_trans ih (f.parent_le a)

theorem parent_parent_ne {f : Forest} {a : UInt32} (h : f.parent a ≠ a) :
    f.parent (f.parent a) ≠ a := by
  intro heq
  have hgrand := f.parent_le (f.parent a)
  rw [heq] at hgrand
  exact h (UInt32.le_antisymm (f.parent_le a) hgrand)

theorem root_link_of_root_eq {f : Forest} {a t : UInt32} (h : t ≤ a) (hne : t ≠ a)
    (ht : f.root t = f.root a) (x : UInt32) : (f.link a t h).root x = f.root x := by
  induction hx : x.toNat using Nat.strongRecOn generalizing x with
  | ind n ih =>
    cases hx
    have hparent := f.parent_link h x
    by_cases hxa : x = a
    · rw [if_pos hxa] at hparent
      have hlt : t.toNat < x.toNat := by
        rw [hxa]
        exact UInt32.lt_iff_toNat_lt.1 (UInt32.lt_of_le_of_ne h hne)
      calc (f.link a t h).root x = (f.link a t h).root t := by rw [← root_parent, hparent]
        _ = f.root t := ih _ hlt t rfl
        _ = f.root x := by rw [ht, hxa]
    · rw [if_neg hxa] at hparent
      by_cases hroot : f.parent x = x
      · rw [root_eq_self (hparent.trans hroot), root_eq_self hroot]
      · calc (f.link a t h).root x = (f.link a t h).root (f.parent x) := by
              rw [← root_parent, hparent]
          _ = f.root (f.parent x) := ih _ (parent_lt hroot) _ rfl
          _ = f.root x := f.root_parent x

theorem root_link_of_roots {f : Forest} {a t : UInt32} (h : t ≤ a) (ha : f.parent a = a)
    (ht : f.parent t = t) (x : UInt32) :
    (f.link a t h).root x = if f.root x = a then t else f.root x := by
  have htarget : (f.link a t h).root t = t := by
    apply root_eq_self
    rw [parent_link]
    split
    · rfl
    · exact ht
  induction hx : x.toNat using Nat.strongRecOn generalizing x with
  | ind n ih =>
    cases hx
    have hparent := f.parent_link h x
    by_cases hxa : x = a
    · rw [if_pos hxa] at hparent
      have hroot : f.root x = a := by rw [hxa, root_eq_self ha]
      rw [if_pos hroot, ← root_parent, hparent, htarget]
    · rw [if_neg hxa] at hparent
      by_cases hroot : f.parent x = x
      · rw [root_eq_self (hparent.trans hroot), root_eq_self hroot, if_neg hxa]
      · rw [← root_parent, hparent, ih _ (parent_lt hroot) _ rfl, f.root_parent]

/-- Finding gives the root, and shortens chains without changing a root. -/
theorem find_spec (f : Forest) (a : UInt32) :
    (f.find a).1 = f.root a ∧ ∀ x, (f.find a).2.root x = f.root x := by
  fun_induction f.find a with
  | case1 f a parent h => exact ⟨(root_eq_self h).symm, fun _ => rfl⟩
  | case2 f a parent h grandparent ih =>
    have hparent : f.parent a ≤ a := f.parent_le a
    have hgrand : f.parent (f.parent a) ≤ f.parent a := f.parent_le _
    have hroot : f.root (f.parent (f.parent a)) = f.root a := by
      rw [root_parent, root_parent]
    have hkeeps := root_link_of_root_eq (UInt32.le_trans hgrand hparent) (parent_parent_ne h) hroot
    refine ⟨ih.1.trans ((hkeeps _).trans (f.root_parent a)), ?_⟩
    intro x
    exact (ih.2 x).trans (hkeeps x)

theorem root_union (f : Forest) (a b x : UInt32) :
    (f.union a b).root x =
      if f.root x = f.root a ∨ f.root x = f.root b then
        if f.root a ≤ f.root b then f.root a else f.root b
      else f.root x := by
  obtain ⟨hrootA, hkeepsA⟩ := f.find_spec a
  obtain ⟨hrootB, hkeepsB⟩ := (f.find a).2.find_spec b
  have hkeeps : ∀ y, ((f.find a).2.find b).2.root y = f.root y :=
    fun y => (hkeepsB y).trans (hkeepsA y)
  rw [hkeepsA] at hrootB
  have hparent : ∀ y, f.root y = y → ((f.find a).2.find b).2.parent y = y := by
    intro y hy
    have hroot := ((f.find a).2.find b).2.parent_root y
    rwa [hkeeps, hy] at hroot
  have hrootsA := hparent _ (f.root_root a)
  have hrootsB := hparent _ (f.root_root b)
  rw [union]
  simp only [hrootA, hrootB]
  by_cases hle : f.root a ≤ f.root b
  · rw [dif_pos hle, if_pos hle]
    by_cases heq : f.root a = f.root b
    · rw [if_pos heq, hkeeps, ← heq]
      by_cases hx : f.root x = f.root a
      · rw [if_pos (.inl hx), hx]
      · rw [if_neg (not_or.2 ⟨hx, hx⟩)]
    · rw [if_neg heq, root_link_of_roots hle hrootsB hrootsA, hkeeps]
      by_cases hb : f.root x = f.root b
      · rw [if_pos hb, if_pos (.inr hb)]
      · by_cases ha : f.root x = f.root a
        · rw [if_neg hb, if_pos (.inl ha), ha]
        · rw [if_neg hb, if_neg (not_or.2 ⟨ha, hb⟩)]
  · rw [dif_neg hle, if_neg hle, root_link_of_roots _ hrootsA hrootsB, hkeeps]
    by_cases ha : f.root x = f.root a
    · rw [if_pos ha, if_pos (.inl ha)]
    · by_cases hb : f.root x = f.root b
      · rw [if_neg ha, if_pos (.inr hb), hb]
      · rw [if_neg ha, if_neg (not_or.2 ⟨ha, hb⟩)]

theorem root_union_eq {f : Forest} {x y : UInt32} (h : f.root x = f.root y) (a b : UInt32) :
    (f.union a b).root x = (f.union a b).root y := by
  rw [root_union, root_union, h]

theorem root_union_joined (f : Forest) (a b : UInt32) :
    (f.union a b).root a = (f.union a b).root b := by
  have ha : f.root a = f.root a ∨ f.root a = f.root b := .inl rfl
  have hb : f.root b = f.root a ∨ f.root b = f.root b := .inr rfl
  rw [root_union, root_union, if_pos ha, if_pos hb]

def Refines (f : Forest) (E : UInt32 → UInt32 → Prop) : Prop :=
  ∀ x, E x (f.root x)

variable {E : UInt32 → UInt32 → Prop}

theorem Refines.of_root_eq {f : Forest} (h : f.Refines E) (hE : Equivalence E) {x y : UInt32}
    (hxy : f.root x = f.root y) : E x y :=
  hE.trans (h x) (hxy ▸ hE.symm (h y))

theorem Refines.union {f : Forest} (h : f.Refines E) (hE : Equivalence E) {a b : UInt32}
    (hab : E a b) : (f.union a b).Refines E := by
  intro x
  rw [root_union]
  split
  · next hx =>
    have hxa : E x a := by
      rcases hx with hx | hx
      · exact h.of_root_eq hE hx
      · exact hE.trans (h.of_root_eq hE hx) (hE.symm hab)
    split
    · exact hE.trans hxa (h a)
    · exact hE.trans hxa (hE.trans hab (h b))
  · exact h x

/-- What is asked of a forest: the root of an offset, or to join the classes of two. -/
inductive Request where
  | find (a : UInt32)
  | union (a b : UInt32)
deriving DecidableEq

def perform (f : Forest) : Request → Forest
  | .find a => (f.find a).2
  | .union a b => f.union a b

def performAll (f : Forest) (requests : List Request) : Forest :=
  requests.foldl perform f

def Joined (requests : List Request) : UInt32 → UInt32 → Prop :=
  Relation.EqvGen fun a b => Request.union a b ∈ requests

variable {f : Forest} {requests : List Request} {x y : UInt32}

theorem root_perform_eq (h : f.root x = f.root y) (request : Request) :
    (f.perform request).root x = (f.perform request).root y := by
  cases request with
  | find a =>
    have hkeeps := (f.find_spec a).2
    exact (hkeeps x).trans (h.trans (hkeeps y).symm)
  | union a b => exact root_union_eq h a b

theorem root_performAll_eq (h : f.root x = f.root y) :
    (f.performAll requests).root x = (f.performAll requests).root y := by
  induction requests generalizing f with
  | nil => exact h
  | cons request rest ih => exact ih (root_perform_eq h request)

theorem root_performAll_joined (h : .union x y ∈ requests) (f : Forest) :
    (f.performAll requests).root x = (f.performAll requests).root y := by
  obtain ⟨before, behind, rfl⟩ := List.append_of_mem h
  rw [performAll, List.foldl_append, List.foldl_cons]
  exact root_performAll_eq (root_union_joined _ x y)

theorem Refines.perform (h : f.Refines E) (hE : Equivalence E) {request : Request}
    (hrequest : ∀ a b, request = .union a b → E a b) : (f.perform request).Refines E := by
  cases request with
  | find a =>
    intro x
    rw [Forest.perform, (f.find_spec a).2]
    exact h x
  | union a b => exact h.union hE (hrequest a b rfl)

theorem Refines.performAll (h : f.Refines E) (hE : Equivalence E)
    (hrequests : ∀ a b, .union a b ∈ requests → E a b) : (f.performAll requests).Refines E := by
  induction requests generalizing f with
  | nil => exact h
  | cons request rest ih =>
    apply ih
    · exact h.perform hE fun a b heq => hrequests a b (heq ▸ List.mem_cons_self)
    · exact fun a b hmem => hrequests a b (List.mem_cons_of_mem request hmem)

/-- The classes behind some requests are what their joins connect. -/
theorem root_performAll_eq_iff :
    (empty.performAll requests).root x = (empty.performAll requests).root y ↔
      Joined requests x y := by
  constructor
  · have hE := Relation.EqvGen.is_equivalence fun a b => Request.union a b ∈ requests
    have hempty : empty.Refines (Joined requests) := by
      intro x
      rw [root_empty]
      exact .refl x
    exact (hempty.performAll hE fun a b hmem => .rel a b hmem).of_root_eq hE
  · intro h
    induction h with
    | rel x y hmem => exact root_performAll_joined hmem empty
    | refl x => rfl
    | symm x y _ ih => exact ih.symm
    | trans x y z _ _ hxy hyz => exact hxy.trans hyz

def Strict (f : Forest) : Prop :=
  ∀ a parent, f.links.get? a = some parent → parent < a

theorem strict_empty : empty.Strict :=
  fun _ _ h => (nomatch h)

theorem Strict.link (h : f.Strict) {a t : UInt32} (hle : t ≤ a) (hne : t ≠ a) :
    (f.link a t hle).Strict := by
  intro other parent hget
  rw [Forest.link, OffsetMap.get?_insert] at hget
  split at hget
  · next heq =>
    cases hget
    rw [heq]
    exact UInt32.lt_of_le_of_ne hle hne
  · exact h other parent hget

theorem Strict.find (h : f.Strict) (a : UInt32) : (f.find a).2.Strict := by
  fun_induction f.find a with
  | case1 f a parent hroot => exact h
  | case2 f a parent hparent grandparent ih => exact ih (h.link _ (parent_parent_ne hparent))

theorem Strict.union (h : f.Strict) (a b : UInt32) : (f.union a b).Strict := by
  have hfound := (h.find a).find b
  rw [Forest.union]
  dsimp only
  split
  · split
    · exact hfound
    · next hne => exact hfound.link _ hne
  · next hnot => exact hfound.link _ fun heq => hnot (heq ▸ UInt32.le_refl _)

theorem Strict.performAll (h : f.Strict) : (f.performAll requests).Strict := by
  induction requests generalizing f with
  | nil => exact h
  | cons request rest ih =>
    cases request with
    | find a => exact ih (h.find a)
    | union a b => exact ih (h.union a b)

/-- Where the link of an offset leads, whatever the links are. -/
def follow (links : OffsetMap UInt32) (a : UInt32) : UInt32 :=
  (links.get? a).getD a

/-- One round of the search for a root: the link of the offset skips its parent, where the search
goes on. -/
inductive Round : OffsetMap UInt32 × UInt32 → OffsetMap UInt32 × UInt32 → Prop
  | skip {links : OffsetMap UInt32} {a : UInt32} : follow links a ≠ a →
      Round (links, a) (links.insert a (follow links (follow links a)), follow links a)

theorem acc_round (f : Forest) (a : UInt32) : Acc (Function.swap Round) (f.links, a) := by
  induction ha : a.toNat using Nat.strongRecOn generalizing f a with
  | ind n ih =>
    cases ha
    refine .intro _ fun next hround => ?_
    cases hround with
    | skip hne =>
      have hle : f.parent (f.parent a) ≤ a :=
        UInt32.le_trans (f.parent_le (f.parent a)) (f.parent_le a)
      exact ih _ (parent_lt hne) (f.link a _ hle) (f.parent a) rfl

theorem rounds_find (f : Forest) (a : UInt32) :
    Relation.ReflTransGen Round (f.links, a) ((f.find a).2.links, (f.find a).1) := by
  fun_induction f.find a with
  | case1 f a parent hroot => exact .refl
  | case2 f a parent hparent grandparent ih => exact .head (.skip hparent) ih

theorem no_round_of_find (f : Forest) (a : UInt32) (next : OffsetMap UInt32 × UInt32) :
    ¬Round ((f.find a).2.links, (f.find a).1) next := by
  intro hround
  cases hround with
  | skip hne =>
    obtain ⟨hroot, hkeeps⟩ := f.find_spec a
    apply hne
    have hfixed := (f.find a).2.parent_root a
    rw [hkeeps, ← hroot] at hfixed
    exact hfixed

/-- A forest represents the classes that the requests so far have made. -/
structure Partitions (f : Forest) (requests : List Request) : Prop where
  descends : ∀ a parent, f.links.get? a = some parent → parent < a
  ends : ∀ a, Acc (Function.swap Round) (f.links, a)
  finds : ∀ a, Relation.ReflTransGen Round (f.links, a) ((f.find a).2.links, (f.find a).1) ∧
    ∀ next, ¬Round ((f.find a).2.links, (f.find a).1) next
  least : ∀ a, IsLeast {b | Joined requests a b} (f.find a).1
  keeps : ∀ a x, (f.find a).2.root x = f.root x
  together : ∀ a b, f.root a = f.root b ↔ Joined requests a b

/-- Whatever is asked in turn, starting without links: links lead to smaller offsets, so every
search ends; it ends with the least offset of the class and leaves all roots as they are; and
offsets have one root exactly if the joins connect them. -/
theorem performAll_partitions (requests : List Request) :
    (empty.performAll requests).Partitions requests where
  descends := strict_empty.performAll
  ends := acc_round _
  finds a := ⟨rounds_find _ a, no_round_of_find _ a⟩
  least a := by
    rw [(find_spec _ a).1]
    constructor
    · exact root_performAll_eq_iff.1 (root_root _ a).symm
    · intro b hb
      rw [root_performAll_eq_iff.2 hb]
      exact root_le _ b
  keeps a := (find_spec _ a).2
  together _ _ := root_performAll_eq_iff

def joining : List UInt32 → List Request
  | [] => []
  | first :: rest => rest.map (.union first)

theorem unionAll_eq (f : Forest) (l : List UInt32) : f.unionAll l = f.performAll (joining l) := by
  cases l with
  | nil => rfl
  | cons first rest =>
    rw [unionAll, joining, performAll, List.foldl_map]
    rfl

theorem mem_of_mem_joining {l : List UInt32} (h : .union x y ∈ joining l) : x ∈ l ∧ y ∈ l := by
  cases l with
  | nil => cases h
  | cons first rest =>
    obtain ⟨other, hother, heq⟩ := List.mem_map.1 h
    cases heq
    exact ⟨List.mem_cons_self, List.mem_cons_of_mem _ hother⟩

theorem joined_of_mem {l : List UInt32} (hl : joining l ⊆ requests) (hx : x ∈ l) (hy : y ∈ l) :
    Joined requests x y := by
  cases l with
  | nil => cases hx
  | cons first rest =>
    have hfirst : ∀ z ∈ first :: rest, Joined requests first z := by
      intro z hz
      rcases List.mem_cons.1 hz with rfl | hz
      · exact .refl z
      · exact .rel first z (hl (List.mem_map_of_mem hz))
    exact .trans x first y (.symm first x (hfirst x hx)) (hfirst y hy)

end Forest

def joinsOf (slots : List Slot) (stored : OffsetSet) : List Forest.Request :=
  slots.flatMap fun slot => Forest.joining (slot.storedProducers stored)

theorem joinProducers_eq (slots : List Slot) (stored : OffsetSet) :
    joinProducers slots stored = Forest.empty.performAll (joinsOf slots stored) := by
  rw [joinProducers, joinsOf, Forest.performAll, List.foldl_flatMap]
  simp only [Forest.unionAll_eq, Forest.performAll]

/-- Two stored producers may be read by one slot. -/
def Meet (slots : List Slot) (stored : OffsetSet) (a b : UInt32) : Prop :=
  ∃ slot ∈ slots, a ∈ slot.storedProducers stored ∧ b ∈ slot.storedProducers stored

/-- Stored producers are in one class when a chain of slots links them. -/
theorem root_joinProducers_eq_iff {slots : List Slot} {stored : OffsetSet} {a b : UInt32} :
    (joinProducers slots stored).root a = (joinProducers slots stored).root b ↔
      Relation.EqvGen (Meet slots stored) a b := by
  rw [joinProducers_eq, Forest.root_performAll_eq_iff]
  constructor
  · apply Relation.EqvGen.mono
    intro x y hmem
    obtain ⟨slot, hslot, hjoin⟩ := List.mem_flatMap.1 hmem
    exact ⟨slot, hslot, Forest.mem_of_mem_joining hjoin⟩
  · intro h
    induction h with
    | rel x y hmeet =>
      obtain ⟨slot, hslot, hx, hy⟩ := hmeet
      exact Forest.joined_of_mem (fun _ hjoin => List.mem_flatMap.2 ⟨slot, hslot, hjoin⟩) hx hy
    | refl x => exact .refl x
    | symm x y _ ih => exact .symm x y ih
    | trans x y z _ _ hxy hyz => exact .trans x y z hxy hyz

end StackLift
