import Mathlib.Data.Fintype.Order
import Mathlib.Logic.Relation
import Mathlib.Order.WellFounded
import Mathlib.Tactic

/-!
# What a walk down from a root meets

`kids` lists the successors of a node. When every node met from the root is
listed by at most one such node and the root by none, the nodes met form a
tree: none of them is below itself, the nodes below two siblings are disjoint,
and a preorder walk meets nothing twice.
-/

namespace Rooted
open Relation
variable {α : Type*}

section Relation
variable {C : α → α → Prop} {root : α}

theorem no_cycle
    (hone : ∀ d d' c, ReflTransGen C root d → ReflTransGen C root d' → C d c → C d' c → d = d')
    (hroot : ∀ d, ReflTransGen C root d → ¬ C d root) {d : α} (hd : ReflTransGen C root d) :
    ¬ TransGen C d d := by
  induction hd with
  | refl =>
    intro h
    obtain ⟨e, hre, her⟩ := TransGen.tail'_iff.mp h
    exact hroot e hre her
  | tail hp hpd ih =>
    rename_i p d
    intro h
    obtain ⟨e, hde, hed⟩ := TransGen.tail'_iff.mp h
    have hep : e = p := hone e p d ((hp.tail hpd).trans hde) hp hed hpd
    rw [hep] at hde
    exact ih (TransGen.head' hpd hde)

theorem above_or_above
    (hone : ∀ d d' c, ReflTransGen C root d → ReflTransGen C root d' → C d c → C d' c → d = d')
    {a b x : α} (ha : ReflTransGen C root a) (hb : ReflTransGen C root b)
    (hax : ReflTransGen C a x) (hbx : ReflTransGen C b x) :
    ReflTransGen C a b ∨ ReflTransGen C b a := by
  induction hax with
  | refl => exact Or.inr hbx
  | tail hay hyx ih =>
    rename_i y x
    rcases ReflTransGen.cases_tail hbx with rfl | ⟨z, hbz, hzx⟩
    · exact Or.inl (hay.tail hyx)
    · have hzy : z = y := hone z y x (hb.trans hbz) (ha.trans hay) hzx hyx
      exact ih (hzy ▸ hbz)

theorem siblings_disjoint
    (hone : ∀ d d' c, ReflTransGen C root d → ReflTransGen C root d' → C d c → C d' c → d = d')
    (hcycle : ∀ d, ReflTransGen C root d → ¬ TransGen C d d)
    {d a b x : α} (hd : ReflTransGen C root d) (ha : C d a) (hb : C d b)
    (hax : ReflTransGen C a x) (hbx : ReflTransGen C b x) : a = b := by
  have hra : ReflTransGen C root a := hd.tail ha
  have hrb : ReflTransGen C root b := hd.tail hb
  -- A proper descent from one sibling to the other passes through `d` again.
  have key : ∀ {u v}, ReflTransGen C root u → C d u → C d v → ReflTransGen C u v → u = v := by
    intro u v hu hdu hdv huv
    rcases ReflTransGen.cases_tail huv with rfl | ⟨z, huz, hzv⟩
    · rfl
    · have hzd : z = d := hone z d v (hu.trans huz) hd hzv hdv
      exact absurd (TransGen.head' hdu (hzd ▸ huz)) (hcycle d hd)
  rcases above_or_above hone hra hrb hax hbx with h | h
  · exact key hra ha hb h
  · exact (key hrb hb ha h).symm

theorem acc_of_no_cycle [Finite α] (hcycle : ∀ d, ReflTransGen C root d → ¬ TransGen C d d)
    {d : α} (hd : ReflTransGen C root d) : Acc (fun c d => C d c) d := by
  let below : {d // ReflTransGen C root d} → {d // ReflTransGen C root d} → Prop :=
    fun c d => TransGen C d.1 c.1
  have : IsTrans _ below := ⟨fun _ _ _ hab hbc => TransGen.trans hbc hab⟩
  have : Std.Irrefl below := ⟨fun d => hcycle d.1 d.2⟩
  have hwf : WellFounded below := Finite.wellFounded_of_trans_of_irrefl below
  have hacc : ∀ e : {d // ReflTransGen C root d}, Acc (fun c d => C d c) e.1 := by
    intro e
    induction e using hwf.induction with
    | _ e ih => exact ⟨_, fun c hc => ih ⟨c, e.2.tail hc⟩ (TransGen.single hc)⟩
  exact hacc ⟨d, hd⟩

end Relation

def preorder (kids : α → List α) : ℕ → α → List α
  | 0, d => [d]
  | depth + 1, d => d :: (kids d).flatMap (preorder kids depth)

variable {kids : α → List α} {root : α}

theorem below_of_mem_preorder {depth : ℕ} {d x : α} (h : x ∈ preorder kids depth d) :
    ReflTransGen (fun d c => c ∈ kids d) d x := by
  induction depth generalizing d with
  | zero =>
    rw [preorder, List.mem_singleton] at h
    exact h ▸ .refl
  | succ depth ih =>
    rcases List.mem_cons.mp h with rfl | h
    · exact .refl
    · obtain ⟨c, hc, hx⟩ := List.mem_flatMap.mp h
      exact .head hc (ih hx)

theorem preorder_nodup
    (hkids : ∀ d, ReflTransGen (fun d c => c ∈ kids d) root d → (kids d).Nodup)
    (hone : ∀ d d' c, ReflTransGen (fun d c => c ∈ kids d) root d →
      ReflTransGen (fun d c => c ∈ kids d) root d' → c ∈ kids d → c ∈ kids d' → d = d')
    (hcycle : ∀ d, ReflTransGen (fun d c => c ∈ kids d) root d →
      ¬ TransGen (fun d c => c ∈ kids d) d d)
    (depth : ℕ) {d : α} (hd : ReflTransGen (fun d c => c ∈ kids d) root d) :
    (preorder kids depth d).Nodup := by
  induction depth generalizing d with
  | zero => exact List.nodup_singleton d
  | succ depth ih =>
    refine List.nodup_cons.mpr ⟨fun hmem => ?_, List.nodup_flatMap.mpr ⟨?_, ?_⟩⟩
    · obtain ⟨c, hc, hdc⟩ := List.mem_flatMap.mp hmem
      exact hcycle d hd (TransGen.head' hc (below_of_mem_preorder hdc))
    · exact fun c hc => ih (hd.tail hc)
    · refine (hkids d hd).imp_of_mem fun ha hb hab => ?_
      intro x hxa hxb
      exact hab (siblings_disjoint hone hcycle hd ha hb (below_of_mem_preorder hxa)
        (below_of_mem_preorder hxb))

end Rooted
