import Mathlib.Data.List.Basic
import Mathlib.Data.List.Nodup

/-!
# Association lists

Lists of keys and values as the dictionaries of scripting languages: a key that is
there keeps its place, and a new one goes to the end.
-/

namespace Association

variable {K V : Type} [DecidableEq K]

/-- The value of the first entry with the key. -/
def lookup (key : K) (entries : List (K × V)) : Option V :=
  (entries.find? fun entry => entry.1 = key).map Prod.snd

def insert (key : K) (val : V) (entries : List (K × V)) : List (K × V) :=
  if entries.any (fun entry => entry.1 = key) then
    entries.map fun entry => if entry.1 = key then (key, val) else entry
  else entries ++ [(key, val)]

/-- The entries of another list put in one after the other. -/
def update (entries more : List (K × V)) : List (K × V) :=
  more.foldl (fun entries entry => insert entry.1 entry.2 entries) entries

variable {key other : K} {val : V} {entries more : List (K × V)}

@[simp] theorem lookup_nil : lookup key ([] : List (K × V)) = none := rfl

theorem lookup_cons (entry : K × V) : lookup key (entry :: entries) =
    if entry.1 = key then some entry.2 else lookup key entries := by
  unfold lookup
  rw [List.find?_cons]
  by_cases h : entry.1 = key
  · simp [h]
  · simp [h]

theorem lookup_eq_none : lookup key entries = none ↔ key ∉ entries.map Prod.fst := by
  induction entries with
  | nil => simp
  | cons entry entries ih =>
      rw [lookup_cons, List.map_cons, List.mem_cons]
      by_cases h : entry.1 = key
      · simp [h]
      · have hne : ¬ key = entry.1 := fun heq => h heq.symm
        rw [if_neg h, ih]
        simp [hne]

/-- An entry is found by its key if the keys are distinct. -/
theorem lookup_of_mem (h : (entries.map Prod.fst).Nodup) (hmem : (key, val) ∈ entries) :
    lookup key entries = some val := by
  induction entries with
  | nil => cases hmem
  | cons entry entries ih =>
      rw [List.map_cons, List.nodup_cons] at h
      rw [lookup_cons]
      rcases List.mem_cons.mp hmem with rfl | hmem
      · exact if_pos rfl
      · have hne : entry.1 ≠ key := by
          rintro rfl
          exact h.1 (List.mem_map.mpr ⟨_, hmem, rfl⟩)
        rw [if_neg hne, ih h.2 hmem]

theorem lookup_append : lookup key (entries ++ more) =
    (lookup key entries).or (lookup key more) := by
  induction entries with
  | nil => simp
  | cons entry entries ih =>
      rw [List.cons_append, lookup_cons, lookup_cons, ih]
      split <;> simp

theorem any_key : entries.any (fun entry => entry.1 = key) = true ↔ key ∈ entries.map Prod.fst := by
  simp

theorem insert_of_notMem (h : key ∉ entries.map Prod.fst) :
    insert key val entries = entries ++ [(key, val)] :=
  if_neg fun hany => h (any_key.mp hany)

theorem insert_of_mem (h : key ∈ entries.map Prod.fst) : insert key val entries =
    entries.map fun entry => if entry.1 = key then (key, val) else entry :=
  if_pos (any_key.mpr h)

theorem length_insert_le : (insert key val entries).length ≤ entries.length + 1 := by
  by_cases hmem : key ∈ entries.map Prod.fst
  · rw [insert_of_mem hmem, List.length_map]
    exact Nat.le_succ _
  · exact Nat.le_of_eq (by rw [insert_of_notMem hmem, List.length_append, List.length_singleton])

theorem mem_insert {entry : K × V} (h : entry ∈ insert key val entries) :
    entry = (key, val) ∨ entry ∈ entries := by
  by_cases hmem : key ∈ entries.map Prod.fst
  · rw [insert_of_mem hmem] at h
    obtain ⟨old, hold, rfl⟩ := List.mem_map.mp h
    split
    · exact .inl rfl
    · exact .inr hold
  · rw [insert_of_notMem hmem] at h
    cases List.mem_append.mp h with
    | inl hold => exact .inr hold
    | inr hnew => exact .inl (List.mem_singleton.mp hnew)

theorem lookup_replace : lookup other
      (entries.map fun entry => if entry.1 = key then (key, val) else entry) =
    if other = key then (lookup key entries).map fun _ => val else lookup other entries := by
  induction entries with
  | nil => simp
  | cons entry entries ih =>
      rw [List.map_cons, lookup_cons, lookup_cons, lookup_cons, ih]
      by_cases hkey : entry.1 = key
      · by_cases hother : other = key
        · simp [hkey, hother]
        · have hother' : ¬ key = other := fun h => hother h.symm
          simp [hkey, hother, hother']
      · by_cases hother : other = key
        · subst hother
          simp [hkey]
        · simp [hkey, hother]

/-- Putting in a value changes what is found for its key, and nothing else. -/
theorem lookup_insert : lookup other (insert key val entries) =
    if other = key then some val else lookup other entries := by
  by_cases hmem : key ∈ entries.map Prod.fst
  · have hsome : (lookup key entries).isSome := by
      rw [Option.isSome_iff_ne_none]
      exact fun h => lookup_eq_none.mp h hmem
    obtain ⟨old, hold⟩ := Option.isSome_iff_exists.mp hsome
    rw [insert_of_mem hmem, lookup_replace, hold]
    rfl
  · rw [insert_of_notMem hmem, lookup_append, lookup_cons]
    by_cases hother : other = key
    · subst hother
      rw [lookup_eq_none.mpr hmem]
      simp
    · have hother' : ¬ key = other := fun h => hother h.symm
      simp [hother, hother']

theorem keys_insert : (insert key val entries).map Prod.fst =
    if key ∈ entries.map Prod.fst then entries.map Prod.fst else entries.map Prod.fst ++ [key] := by
  by_cases hmem : key ∈ entries.map Prod.fst
  · rw [insert_of_mem hmem, if_pos hmem, List.map_map]
    refine List.map_congr_left ?_
    intro entry hentry
    by_cases hkey : entry.1 = key
    · simp [hkey]
    · simp [hkey]
  · rw [insert_of_notMem hmem, if_neg hmem]
    simp

/-- No key is there twice. -/
theorem nodup_insert (h : (entries.map Prod.fst).Nodup) :
    ((insert key val entries).map Prod.fst).Nodup := by
  rw [keys_insert]
  split
  · exact h
  next hmem => exact List.concat_eq_append ▸ h.concat hmem

/-- Of two lists the second decides. -/
theorem lookup_update (hmore : (more.map Prod.fst).Nodup) :
    lookup key (update entries more) = (lookup key more).or (lookup key entries) := by
  induction more generalizing entries with
  | nil => simp [update]
  | cons entry more ih =>
      rw [List.map_cons, List.nodup_cons] at hmore
      have hupdate : update entries (entry :: more) = update (insert entry.1 entry.2 entries) more :=
        rfl
      rw [hupdate, ih hmore.2, lookup_insert, lookup_cons]
      by_cases hkey : key = entry.1
      · have hnone : lookup key more = none := lookup_eq_none.mpr (hkey ▸ hmore.1)
        simp [hkey.symm, hnone]
      · have hkey' : ¬ entry.1 = key := fun h => hkey h.symm
        simp [hkey, hkey']

theorem nodup_update (h : (entries.map Prod.fst).Nodup) :
    ((update entries more).map Prod.fst).Nodup := by
  induction more generalizing entries with
  | nil => exact h
  | cons entry more ih => exact ih (nodup_insert h)

end Association
