/-!
Lists of pairs in the order in which their keys first came. Putting a value under a key that is
present changes the value in place; under a new key it is appended.
-/

namespace Comprehension.Assoc

variable {κ α : Type} [DecidableEq κ]

def put (k : κ) (a : α) : List (κ × α) → List (κ × α)
  | [] => [(k, a)]
  | p :: ps => if p.1 = k then (k, a) :: ps else p :: put k a ps

def get? (k : κ) : List (κ × α) → Option α
  | [] => none
  | p :: ps => if p.1 = k then some p.2 else get? k ps

def keys (ps : List (κ × α)) : List κ := ps.map (·.1)

/-! ## Keys -/

theorem keys_put (k : κ) (a : α) (ps : List (κ × α)) :
    keys (put k a ps) = if k ∈ keys ps then keys ps else keys ps ++ [k] := by
  induction ps with
  | nil => simp [put, keys]
  | cons p ps ih =>
    by_cases h : p.1 = k
    · simp [put, keys, h]
    · have h' : k ≠ p.1 := Ne.symm h
      by_cases hk : k ∈ keys ps <;> simp_all [put, keys]

theorem mem_keys_put {k : κ} {a : α} {ps : List (κ × α)} {j : κ} :
    j ∈ keys (put k a ps) ↔ j = k ∨ j ∈ keys ps := by
  rw [keys_put]
  split
  · rename_i h
    constructor
    · exact Or.inr
    · rintro (rfl | hj)
      · exact h
      · exact hj
  · rw [List.mem_append, List.mem_singleton, or_comm]

theorem nodup_keys_put (k : κ) (a : α) {ps : List (κ × α)} (h : (keys ps).Nodup) :
    (keys (put k a ps)).Nodup := by
  rw [keys_put]
  split
  · exact h
  · rename_i hk
    exact List.nodup_append.2 ⟨h, by simp, fun x hx y hy => by
      simp only [List.mem_singleton] at hy; subst hy; exact fun e => hk (e ▸ hx)⟩

/-- Under a new key the value is appended. -/
theorem put_of_not_mem {k : κ} {ps : List (κ × α)} (h : k ∉ keys ps) (a : α) :
    put k a ps = ps ++ [(k, a)] := by
  induction ps with
  | nil => rfl
  | cons p ps ih =>
    rw [keys, List.map_cons, List.mem_cons, not_or] at h
    rw [put, if_neg (Ne.symm h.1), ih h.2, List.cons_append]

/-! ## Values -/

theorem mem_put {k : κ} {a : α} {ps : List (κ × α)} {p : κ × α} (h : p ∈ put k a ps) :
    p = (k, a) ∨ p ∈ ps := by
  induction ps with
  | nil => exact Or.inl (List.mem_singleton.mp h)
  | cons q ps ih =>
    rw [put] at h
    split at h
    · rcases List.mem_cons.mp h with h | h
      · exact Or.inl h
      · exact Or.inr (List.mem_cons_of_mem _ h)
    · rcases List.mem_cons.mp h with h | h
      · exact Or.inr (h ▸ List.mem_cons_self)
      · exact (ih h).imp id (List.mem_cons_of_mem _)

theorem get?_put (k : κ) (a : α) (ps : List (κ × α)) (j : κ) :
    get? j (put k a ps) = if j = k then some a else get? j ps := by
  induction ps with
  | nil => by_cases h : k = j <;> simp [put, get?, h, eq_comm]
  | cons p ps ih => grind [put, get?]

/-- Where no key comes twice, each pair is found by its key. -/
theorem get?_of_mem {ps : List (κ × α)} (h : (keys ps).Nodup) {p : κ × α} (hp : p ∈ ps) :
    get? p.1 ps = some p.2 := by
  induction ps with
  | nil => cases hp
  | cons q ps ih =>
    rw [keys, List.map_cons, List.nodup_cons] at h
    rw [get?]
    rcases List.mem_cons.mp hp with rfl | hp
    · exact if_pos rfl
    · have hne : q.1 ≠ p.1 := fun heq => h.1 (heq ▸ List.mem_map_of_mem hp)
      rw [if_neg hne]
      exact ih h.2 hp

end Comprehension.Assoc
