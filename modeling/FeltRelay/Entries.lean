/-!
# Entries in order of arrival

A table with text keys is a list of pairs. A new key goes to the end, a key that is present keeps
its place and gets the new value. Looking up is `List.lookup`.
-/

namespace FeltRelay.Entries

variable {α β : Type}

def put (k : String) (v : α) : List (String × α) → List (String × α)
  | [] => [(k, v)]
  | (k', v') :: rest => if k' = k then (k', v) :: rest else (k', v') :: put k v rest

/-- Writes all pairs of the second table into the first, in order. -/
def putAll (old new : List (String × α)) : List (String × α) :=
  new.foldl (fun acc e => put e.1 e.2 acc) old

/-- A table from pairs in order: of a repeated key the last value counts, at the first place. -/
def ofPairs (pairs : List (String × α)) : List (String × α) := putAll [] pairs

def erase (k : String) (t : List (String × α)) : List (String × α) := t.filter (·.1 ≠ k)

def keys (t : List (String × α)) : List String := t.map (·.1)

def has (k : String) (t : List (String × α)) : Bool := (t.lookup k).isSome

/-- Writes a value under a key unless the key is present. -/
def putNew (k : String) (v : α) (t : List (String × α)) : List (String × α) :=
  if has k t then t else put k v t

/-- Inserts a pair before the first one whose key is not smaller. -/
def insertSorted (e : String × α) : List (String × α) → List (String × α)
  | [] => [e]
  | f :: rest => if e.1 ≤ f.1 then e :: f :: rest else f :: insertSorted e rest

/-- The pairs by ascending key, keys compared by code points. -/
def sorted : List (String × α) → List (String × α)
  | [] => []
  | e :: rest => insertSorted e (sorted rest)

/-- Whether two tables hold the same values under the same keys, in whatever order. -/
def same [DecidableEq α] (s t : List (String × α)) : Bool :=
  s.all (fun e => t.lookup e.1 = some e.2) && t.all (fun e => has e.1 s)

@[simp] theorem keys_nil : keys ([] : List (String × α)) = [] := rfl

@[simp] theorem keys_cons (e : String × α) (t : List (String × α)) :
    keys (e :: t) = e.1 :: keys t := rfl

/-- What was written is found. -/
@[simp] theorem lookup_put_self (k : String) (v : α) (t : List (String × α)) :
    (put k v t).lookup k = some v := by
  induction t with
  | nil => simp [put]
  | cons e rest ih =>
    obtain ⟨k', v'⟩ := e
    by_cases h : k' = k
    · subst h; simp [put]
    · have h' : (k == k') = false := by simpa using fun e => h e.symm
      simp [put, h, List.lookup_cons, h', ih]

/-- Other keys keep their values. -/
theorem lookup_put_of_ne {k k' : String} (h : k' ≠ k) (v : α) (t : List (String × α)) :
    (put k v t).lookup k' = t.lookup k' := by
  induction t with
  | nil =>
    have h' : (k' == k) = false := by simpa using h
    simp [put, List.lookup_cons, h']
  | cons e rest ih =>
    obtain ⟨j, w⟩ := e
    by_cases hj : j = k
    · subst hj
      have h' : (k' == j) = false := by simpa using h
      simp [put, List.lookup_cons, h']
    · simp only [put, hj, if_false, List.lookup_cons]
      split <;> simp_all

end FeltRelay.Entries
