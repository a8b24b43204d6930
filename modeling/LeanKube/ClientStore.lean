import LeanKube.GoMap

/-! The generic object store of client-go (`tools/cache/store.go`): a key function in front of a
map guarded by a lock. Every entry sits under its own key, which the type records. -/

namespace LeanKube

structure KeyError (E : Type) where
  obj : E
  err : String
  deriving DecidableEq

structure Store {E : Type} (keyFunc : E → Except String String) where
  items : GoMap String E
  keyed : ∀ key obj, items.lookup key = some obj → keyFunc obj = .ok key

namespace Store
variable {E : Type} {keyFunc : E → Except String String}

def new (keyFunc : E → Except String String) : Store keyFunc where
  items := ∅
  keyed key obj h := by rw [Finmap.lookup_empty] at h; cases h

variable (c : Store keyFunc) (key : String)

/-- Writes `obj` under its key, as `threadSafeMap.Add` and `threadSafeMap.Update` both do. -/
def set (obj : E) (hkey : keyFunc obj = .ok key) : Store keyFunc where
  items := c.items.insert key obj
  keyed := GoMap.forall_insert c.keyed hkey

variable (obj : E)

def add : Except (KeyError E) (Store keyFunc) :=
  match hkey : keyFunc obj with
  | .error err => .error ⟨obj, err⟩
  | .ok key => .ok (c.set key obj hkey)

def update : Except (KeyError E) (Store keyFunc) :=
  match hkey : keyFunc obj with
  | .error err => .error ⟨obj, err⟩
  | .ok key => .ok (c.set key obj hkey)

def remove : Store keyFunc where
  items := c.items.erase key
  keyed key' obj' h := c.keyed key' obj' (GoMap.of_lookup_erase h).2

def delete : Except (KeyError E) (Store keyFunc) :=
  match keyFunc obj with
  | .error err => .error ⟨obj, err⟩
  | .ok key => .ok (c.remove key)

def getByKey : Option E := c.items.lookup key

def get : Except (KeyError E) (Option E) :=
  match keyFunc obj with
  | .error err => .error ⟨obj, err⟩
  | .ok key => .ok (c.getByKey key)

/-- The loop of `Replace` that builds the new map, later objects overwriting earlier ones. -/
def replaceItems (keyFunc : E → Except String String) : List E → Store keyFunc → Except (KeyError E) (Store keyFunc)
  | [], c => .ok c
  | item :: rest, c =>
    match hkey : keyFunc item with
    | .error err => .error ⟨item, err⟩
    | .ok key => replaceItems keyFunc rest (c.set key item hkey)

def replace (list : List E) : Except (KeyError E) (Store keyFunc) := replaceItems keyFunc list (new keyFunc)

variable {obj : E} (c : Store keyFunc) (key : String)

@[simp] theorem getByKey_set (obj : E) (hkey : keyFunc obj = .ok key) (key' : String) :
    (c.set key obj hkey).getByKey key' = if key' = key then some obj else c.getByKey key' :=
  GoMap.lookup_insert_ite c.items key key' obj

@[simp] theorem getByKey_remove (key' : String) :
    (c.remove key).getByKey key' = if key' = key then none else c.getByKey key' :=
  GoMap.lookup_erase_ite c.items key key'

variable {key}

theorem add_of_key (hkey : keyFunc obj = .ok key) : c.add obj = .ok (c.set key obj hkey) := by
  unfold add
  split
  · next h => rw [h] at hkey; cases hkey
  · next k h =>
      obtain rfl : k = _ := Except.ok.inj (h.symm.trans hkey)
      rfl

theorem add_of_error {err : String} (hkey : keyFunc obj = .error err) : c.add obj = .error ⟨obj, err⟩ := by
  unfold add
  split
  · next h => rw [Except.error.inj (h.symm.trans hkey)]
  · next h => rw [h] at hkey; cases hkey

theorem update_eq_add (obj : E) : c.update obj = c.add obj := rfl

theorem delete_of_key (hkey : keyFunc obj = .ok key) : c.delete obj = .ok (c.remove key) := by
  rw [delete, hkey]

theorem get_of_key (hkey : keyFunc obj = .ok key) : c.get obj = .ok (c.getByKey key) := by
  rw [get, hkey]

end Store
end LeanKube
