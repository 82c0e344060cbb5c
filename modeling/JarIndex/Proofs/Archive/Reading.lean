import JarIndex.Archive.Fields
import JarIndex.Proofs.Bytes

/-!
# Fields that are read back

A reader reads some bytes as a value if it takes them off whatever they stand in
front of. What is read field by field is written as the list of its fields.
-/

set_option autoImplicit false

namespace JarIndex.Archive

variable {α β : Type}

def Reads (r : Fields α) (written : Bytes) (a : α) : Prop :=
  ∀ rest, r (written ++ rest) = .ok (a, rest)

theorem reads_pure (a : α) : Reads (pure a) [] a := by
  intro rest
  rfl

theorem reads_ok (a : α) : Reads (liftM (Except.ok a : Except Fault α)) [] a := by
  intro rest
  rfl

theorem Reads.bind_append {r : Fields α} {front : Bytes} {a : α} (h : Reads r front a)
    (f : α → Fields β) (rest : Bytes) : (r >>= f) (front ++ rest) = f a rest := by
  show (r (front ++ rest) >>= fun p => f p.1 p.2) = _
  rw [h]
  rfl

theorem Reads.bind {r : Fields α} {f : α → Fields β} {front back : Bytes} {a : α} {b : β}
    (hr : Reads r front a) (hf : Reads (f a) back b) : Reads (r >>= f) (front ++ back) b := by
  intro rest
  rw [List.append_assoc, hr.bind_append, hf]

theorem Reads.cons {r : Fields α} {f : α → Fields β} {front : Bytes} {fields : List Bytes} {a : α}
    {b : β} (hr : Reads r front a) (hf : Reads (f a) fields.flatten b) :
    Reads (r >>= f) (front :: fields).flatten b :=
  hr.bind hf

theorem reads_bytes (bs : Bytes) : Reads (Fields.bytes bs.length) bs bs := by
  intro rest
  unfold Fields.bytes
  rw [Bytes.split?_append]

theorem reads_bytes_of_length {n : Nat} {bs : Bytes} (h : bs.length = n) :
    Reads (Fields.bytes n) bs bs := by
  rw [← h]
  exact reads_bytes bs

theorem reads_skip {n : Nat} {bs : Bytes} (h : bs.length = n) : Reads (Fields.skip n) bs () := by
  have hb := (reads_bytes_of_length h).bind (f := fun _ => pure ()) (reads_pure ())
  rw [List.append_nil] at hb
  exact hb

theorem reads_number {n v : Nat} (h : v < 256 ^ n) :
    Reads (Fields.number n) (Bytes.ofNatLE n v) v := by
  have hb := (reads_bytes_of_length (Bytes.length_ofNatLE n v)).bind
    (f := fun bs => pure (Bytes.littleEndian bs)) (reads_pure _)
  rw [List.append_nil, Bytes.littleEndian_ofNatLE, Nat.mod_eq_of_lt h] at hb
  exact hb

theorem Reads.readAt {r : Fields α} {written : Bytes} {a : α} (h : Reads r written a)
    (front rest : Bytes) : r.readAt front.length (front ++ written ++ rest) = .ok a := by
  unfold Fields.readAt
  rw [List.append_assoc, List.drop_left, h]
  rfl

end JarIndex.Archive
