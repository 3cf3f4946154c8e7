import CoffeeBuddy.Library.Table

/-! Junction tables. Every row refers to a row of two other tables, and there is one row
for each pair of them. -/

namespace Relational

structure Junction {ρ κ π μ τ ν : Type*} [Keyed ρ κ] [Keyed π μ] [Keyed τ ν] (f : ρ → μ × ν)
    (t : Table ρ) (ps : Table π) (qs : Table τ) : Prop where
  unique : ∀ r ∈ t, ∀ s ∈ t, f r = f s → r = s
  left : ∀ r ∈ t, ∃ p ∈ ps, Keyed.key p = (f r).1
  right : ∀ r ∈ t, ∃ q ∈ qs, Keyed.key q = (f r).2

namespace Junction
variable {ρ κ π μ τ ν : Type*} [Keyed π μ] [Keyed τ ν] {f : ρ → μ × ν} {ps ps' : Table π}
  {qs qs' : Table τ}

section Keyed
variable [Keyed ρ κ] {t u : Table ρ} {r : ρ}

theorem puts (h : Junction f t ps qs) (hputs : t.Puts f u r)
    (hleft : ∃ p ∈ ps, Keyed.key p = (f r).1) (hright : ∃ q ∈ qs, Keyed.key q = (f r).2) :
    Junction f u ps qs where
  unique := by
    intro s hs s' hs' heq
    by_cases hf : f s = f r
    · rw [hputs.unique hs hf, hputs.unique hs' (heq.symm.trans hf)]
    · have hf' : f s' ≠ f r := fun h => hf (heq.trans h)
      exact h.unique s ((hputs.other hf).mp hs) s' ((hputs.other hf').mp hs') heq
  left := by
    intro s hs
    rcases (hputs s).mp hs with rfl | ⟨hs, -⟩
    · exact hleft
    · exact h.left s hs
  right := by
    intro s hs
    rcases (hputs s).mp hs with rfl | ⟨hs, -⟩
    · exact hright
    · exact h.right s hs

theorem restrict (h : Junction f t ps qs) (hsub : ∀ s ∈ u, s ∈ t)
    (hleft : ∀ s ∈ u, ∀ p ∈ ps, Keyed.key p = (f s).1 → ∃ p' ∈ ps', Keyed.key p' = (f s).1)
    (hright : ∀ s ∈ u, ∀ q ∈ qs, Keyed.key q = (f s).2 → ∃ q' ∈ qs', Keyed.key q' = (f s).2) :
    Junction f u ps' qs' where
  unique s hs s' hs' := h.unique s (hsub s hs) s' (hsub s' hs')
  left s hs := by
    obtain ⟨p, hp, hkey⟩ := h.left s (hsub s hs)
    exact hleft s hs p hp hkey
  right s hs := by
    obtain ⟨q, hq, hkey⟩ := h.right s (hsub s hs)
    exact hright s hs q hq hkey

theorem subset (h : Junction f t ps qs) (hsub : ∀ s ∈ u, s ∈ t) : Junction f u ps qs :=
  h.restrict hsub (fun _ _ p hp hkey => ⟨p, hp, hkey⟩) fun _ _ q hq hkey => ⟨q, hq, hkey⟩

theorem parents (h : Junction f t ps qs)
    (hleft : ∀ p ∈ ps, ∃ p' ∈ ps', Keyed.key p' = Keyed.key p)
    (hright : ∀ q ∈ qs, ∃ q' ∈ qs', Keyed.key q' = Keyed.key q) : Junction f t ps' qs' := by
  refine h.restrict (fun _ hs => hs) (fun s _ p hp hkey => ?_) fun s _ q hq hkey => ?_
  · obtain ⟨p', hp', heq⟩ := hleft p hp
    exact ⟨p', hp', heq.trans hkey⟩
  · obtain ⟨q', hq', heq⟩ := hright q hq
    exact ⟨q', hq', heq.trans hkey⟩

end Keyed

theorem update [Row ρ κ] [DecidableEq κ] {t : Table ρ} {l m : ρ} (h : Junction f t ps qs)
    (hf : ∀ r, f (Row.merge l m r) = f r) : Junction f (t.update l m) ps qs := by
  have hmem : ∀ s ∈ t.update l m, ∃ r ∈ t, f s = f r ∧
      s = if Keyed.key r = Keyed.key l then Row.merge l m r else r := by
    intro s hs
    obtain ⟨r, hr, hsr⟩ := Table.mem_update'.mp hs
    refine ⟨r, hr, ?_, hsr⟩
    rw [hsr]
    split_ifs
    · exact hf r
    · rfl
  constructor
  · intro s hs s' hs' heq
    obtain ⟨r, hr, hfs, rfl⟩ := hmem s hs
    obtain ⟨r', hr', hfs', rfl⟩ := hmem s' hs'
    obtain rfl := h.unique r hr r' hr' (hfs.symm.trans (heq.trans hfs'))
    rfl
  · intro s hs
    obtain ⟨r, hr, hfs, -⟩ := hmem s hs
    rw [hfs]
    exact h.left r hr
  · intro s hs
    obtain ⟨r, hr, hfs, -⟩ := hmem s hs
    rw [hfs]
    exact h.right r hr

end Junction

theorem Table.exists_mem_update {ρ κ : Type*} [Row ρ κ] [DecidableEq κ] {t : Table ρ} (l m : ρ)
    {r : ρ} (hr : r ∈ t) : ∃ r' ∈ t.update l m, Keyed.key r' = Keyed.key r := by
  have hkey : Keyed.key r ∈ (t.update l m).rows.map Keyed.key := by
    rw [Table.map_key_update]
    exact List.mem_map_of_mem hr
  exact List.mem_map.mp hkey

end Relational
