import Mathlib.Logic.Relation
import Mathlib.Data.List.Pairwise
import Mathlib.Data.List.Perm.Basic

/-!
# Connected sets and the components of a relation

`Connected r S`: every two members of `S` are joined by a chain of `r`-steps that stays inside
`S`. `IsComponents r l blocks`: the blocks put together are the elements of `l`, each block is
non-empty and connected, and no element of a block is related to an element of a later block.
For a symmetric relation the blocks are then exactly the connected components of `r` on `l`:
two elements share a block exactly when a chain of related elements of `l` joins them
(`IsComponents.sameBlock_iff`).
-/

namespace Components

open Relation

variable {α β : Type*} {r : α → α → Prop}

/-- `r` between members of `S`. -/
def Within (r : α → α → Prop) (S : α → Prop) (x y : α) : Prop := S x ∧ S y ∧ r x y

/-- Every two members of `S` are joined by a chain of `r`-steps inside `S`. -/
def Connected (r : α → α → Prop) (S : α → Prop) : Prop :=
  ∀ x y, S x → S y → ReflTransGen (Within r S) x y

theorem connected_singleton (a : α) : Connected r (· = a) := by
  rintro x y rfl rfl
  exact .refl

theorem Connected.congr {S T : α → Prop} (h : Connected r S) (hST : ∀ x, S x ↔ T x) :
    Connected r T := by
  obtain rfl : S = T := funext fun x => propext (hST x)
  exact h

/-- A chain inside `S` is a chain inside any larger set. -/
theorem reflTransGen_within_mono {S T : α → Prop} (hST : ∀ x, S x → T x) {x y : α}
    (h : ReflTransGen (Within r S) x y) : ReflTransGen (Within r T) x y :=
  ReflTransGen.mono (fun a b (hab : Within r S a b) => ⟨hST a hab.1, hST b hab.2.1, hab.2.2⟩)
    x y h

/-- An element related to a member of a connected set joins it. -/
theorem Connected.insert (hsymm : ∀ x y, r x y → r y x) {S : α → Prop} (h : Connected r S)
    {k a : α} (hk : S k) (hka : r k a) : Connected r (fun x => x = a ∨ S x) := by
  have lift : ∀ x y, S x → S y → ReflTransGen (Within r fun x => x = a ∨ S x) x y :=
    fun x y hx hy => reflTransGen_within_mono (fun _ => .inr) (h x y hx hy)
  rintro x y (rfl | hx) (rfl | hy)
  · exact .refl
  · exact (ReflTransGen.single ⟨.inl rfl, .inr hk, hsymm _ _ hka⟩).trans (lift k y hk hy)
  · exact (lift x k hx hk).tail ⟨.inr hk, .inl rfl, hka⟩
  · exact lift x y hx hy

/-- The image of a connected set under a map that keeps the relation is connected. -/
theorem Connected.image {s : β → β → Prop} {S : α → Prop} (h : Connected r S) (f : α → β)
    (hf : ∀ x y, S x → S y → r x y → s (f x) (f y)) :
    Connected s (fun z => ∃ x, S x ∧ f x = z) := by
  rintro _ _ ⟨x, hx, rfl⟩ ⟨y, hy, rfl⟩
  refine ReflTransGen.lift f (fun a b (hab : Within r S a b) => ?_) x y (h x y hx hy)
  exact ⟨⟨a, hab.1, rfl⟩, ⟨b, hab.2.1, rfl⟩, hf a b hab.1 hab.2.1 hab.2.2⟩

variable (r) in
/-- `blocks` split the elements of `l` into non-empty connected blocks, and no element of a
block is related to an element of a later one. -/
structure IsComponents (l : List α) (blocks : List (List α)) : Prop where
  perm : blocks.flatten.Perm l
  ne_nil : ∀ b ∈ blocks, b ≠ []
  connected : ∀ b ∈ blocks, Connected r (· ∈ b)
  separated : blocks.Pairwise fun b c => ∀ x ∈ b, ∀ y ∈ c, ¬ r x y

namespace IsComponents

variable {l : List α} {blocks : List (List α)}

theorem exists_block (h : IsComponents r l blocks) {x : α} (hx : x ∈ l) :
    ∃ b ∈ blocks, x ∈ b :=
  List.mem_flatten.1 (h.perm.mem_iff.2 hx)

theorem mem_of_mem_block (h : IsComponents r l blocks) {b : List α} (hb : b ∈ blocks) {x : α}
    (hx : x ∈ b) : x ∈ l :=
  h.perm.mem_iff.1 (List.mem_flatten.2 ⟨b, hb, hx⟩)

/-- For a symmetric relation, related elements lie in one block. -/
theorem eq_of_rel (h : IsComponents r l blocks) (hsymm : ∀ x y, r x y → r y x)
    {b c : List α} (hb : b ∈ blocks) (hc : c ∈ blocks) {x y : α} (hx : x ∈ b) (hy : y ∈ c)
    (hxy : r x y) : b = c := by
  by_contra hne
  -- the separation is stated for a block and a later one; symmetry gives it both ways
  have : Std.Symm fun b c : List α => ∀ x ∈ b, ∀ y ∈ c, ¬ r x y :=
    ⟨fun b c hbc y hy x hx hyx => hbc x hx y hy (hsymm _ _ hyx)⟩
  exact h.separated.forall hb hc hne x hx y hy hxy

/-- A chain of related elements of `l` stays in the block where it starts: induction on the
chain, each step kept in the block by `eq_of_rel`. -/
theorem sameBlock_of_reflTransGen (h : IsComponents r l blocks) (hsymm : ∀ x y, r x y → r y x)
    {x y : α} (hxy : ReflTransGen (Within r (· ∈ l)) x y) (hx : x ∈ l) :
    ∃ b ∈ blocks, x ∈ b ∧ y ∈ b := by
  induction hxy with
  | refl =>
    obtain ⟨b, hb, hxb⟩ := h.exists_block hx
    exact ⟨b, hb, hxb, hxb⟩
  | tail _ hyz ih =>
    obtain ⟨b, hb, hxb, hyb⟩ := ih
    obtain ⟨c, hc, hzc⟩ := h.exists_block hyz.2.1
    obtain rfl := h.eq_of_rel hsymm hb hc hyb hzc hyz.2.2
    exact ⟨b, hb, hxb, hzc⟩

/-- The blocks are the connected components of `r` on `l`. -/
theorem sameBlock_iff (h : IsComponents r l blocks) (hsymm : ∀ x y, r x y → r y x) {x y : α}
    (hx : x ∈ l) : (∃ b ∈ blocks, x ∈ b ∧ y ∈ b) ↔ ReflTransGen (Within r (· ∈ l)) x y := by
  constructor
  · rintro ⟨b, hb, hxb, hyb⟩
    exact reflTransGen_within_mono (fun _ => h.mem_of_mem_block hb) (h.connected b hb x y hxb hyb)
  · exact fun hxy => h.sameBlock_of_reflTransGen hsymm hxy hx

end IsComponents

end Components
