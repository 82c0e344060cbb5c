import JarIndex.ClassFile.Header
import JarIndex.Proofs.ClassFile.Recognition

/-!
# Reading when more bytes follow

A reader is incremental if it goes by the bytes in front of its cursor alone. With
more bytes behind, it gives the same, unless the end of the input stopped it; and
then there are bytes with which it comes to something else. Incremental readers
compose, so the reader of a whole class file is one.
-/

set_option autoImplicit false

namespace JarIndex.ClassFile

def Cursor.extend (c : Cursor) (t : Bytes) : Cursor := ⟨c.offset, c.rest ++ t⟩

def Cursor.limit (c : Cursor) : Nat := c.offset + c.rest.length

theorem Cursor.extend_nil (c : Cursor) : c.extend [] = c := by
  unfold extend
  rw [List.append_nil]

theorem Cursor.extend_extend (c : Cursor) (t t' : Bytes) :
    (c.extend t).extend t' = c.extend (t ++ t') := by
  unfold extend
  rw [List.append_assoc]

/-- That a result says no more than that the input ended too early. -/
def BreaksOff {α : Type} (x : Except DecodeError α) : Prop := ∃ o, x = .error (.unexpectedEnd o)

theorem not_breaksOff_ok {α : Type} (a : α) : ¬ BreaksOff (.ok a) := by
  intro h
  obtain ⟨o, ho⟩ := h
  cases ho

theorem not_breaksOff_error {α : Type} {e : DecodeError} (h : ∀ o, e ≠ .unexpectedEnd o) :
    ¬ BreaksOff (.error e : Except DecodeError α) := by
  intro hb
  obtain ⟨o, ho⟩ := hb
  exact h o (Except.error.inj ho)

namespace Reader

variable {α β : Type} {c : Cursor}

/-- That what a reader does at a cursor is settled by the bytes that are there: it reads or
refuses them whatever follows, or it breaks off at their end and comes to something else with
the right bytes behind them. -/
inductive Settled (r : Reader α) (c : Cursor) : Prop where
  | read {a : α} {d : Cursor} (value : r c = .ok (a, d)) (limit : d.limit = c.limit)
      (stays : ∀ t, r (c.extend t) = .ok (a, d.extend t))
  | refused {e : DecodeError} (cause : r c = .error e) (final : ∀ o, e ≠ .unexpectedEnd o)
      (stays : ∀ t, r (c.extend t) = .error e)
  | broken {o : Nat} (cause : r c = .error (.unexpectedEnd o)) (within : o ≤ c.limit)
      (completes : ∃ t, ¬ BreaksOff (r (c.extend t)))

def Incremental (r : Reader α) : Prop := ∀ c, Settled r c

theorem Settled.completes {r : Reader α} (h : Settled r c) :
    ∃ t, ¬ BreaksOff (r (c.extend t)) := by
  cases h with
  | read value =>
    refine ⟨[], ?_⟩
    rw [c.extend_nil, value]
    exact not_breaksOff_ok _
  | refused cause final =>
    refine ⟨[], ?_⟩
    rw [c.extend_nil, cause]
    exact not_breaksOff_error final
  | broken _ _ completes => exact completes

section Parts

theorem bind_ok {r : Reader α} {a : α} {d : Cursor} (f : α → Reader β) (h : r c = .ok (a, d)) :
    (r >>= f) c = f a d := by
  show (r c >>= fun p => f p.1 p.2) = _
  rw [h]
  rfl

theorem bind_error {r : Reader α} {e : DecodeError} (f : α → Reader β) (h : r c = .error e) :
    (r >>= f) c = .error e := by
  show (r c >>= fun p => f p.1 p.2) = _
  rw [h]
  rfl

theorem incremental_pure (a : α) : Incremental (pure a) :=
  fun _ => .read rfl rfl fun _ => rfl

theorem incremental_bytes (n : Nat) : Incremental (bytes n) := by
  intro c
  cases hs : Bytes.split? n c.rest with
  | some p =>
    obtain ⟨front, rest⟩ := p
    obtain ⟨hn, hc⟩ := Bytes.split?_eq_some.mp hs
    have ht : ∀ t, Bytes.split? n (c.extend t).rest = some (front, rest ++ t) := by
      intro t
      apply Bytes.split?_eq_some.mpr ⟨hn, _⟩
      show c.rest ++ t = _
      rw [hc, List.append_assoc]
    refine .read (a := front) (d := ⟨c.offset + n, rest⟩) ?_ ?_ ?_
    · rw [bytes, hs]
    · unfold Cursor.limit
      rw [hc, List.length_append, hn, Nat.add_assoc]
    · intro t
      rw [bytes, ht t]
      rfl
  | none =>
    refine .broken (o := c.offset) ?_ (Nat.le_add_right _ _) ⟨List.replicate n 0, ?_⟩
    · rw [bytes, hs]
    · have hl : ¬ (c.extend (List.replicate n 0)).rest.length < n := by
        simp [Cursor.extend]
      cases ht : Bytes.split? n (c.extend (List.replicate n 0)).rest with
      | none => exact absurd (Bytes.split?_eq_none.mp ht) hl
      | some p =>
        rw [bytes, ht]
        exact not_breaksOff_ok _

theorem completes_bind {r : Reader α} {f : α → Reader β} {a : α} {d : Cursor}
    (stays : ∀ t, r (c.extend t) = .ok (a, d.extend t)) (hf : Settled (f a) d) :
    ∃ t, ¬ BreaksOff ((r >>= f) (c.extend t)) := by
  obtain ⟨t, ht⟩ := hf.completes
  exact ⟨t, by rwa [bind_ok f (stays t)]⟩

theorem incremental_bind {r : Reader α} {f : α → Reader β} (hr : Incremental r)
    (hf : ∀ a, Incremental (f a)) : Incremental (r >>= f) := by
  intro c
  cases hr c with
  | @read a d value limit stays =>
    cases hf a d with
    | read value' limit' stays' =>
      refine .read ((bind_ok f value).trans value') (limit'.trans limit) ?_
      intro t
      rw [bind_ok f (stays t), stays' t]
    | refused cause final stays' =>
      refine .refused ((bind_ok f value).trans cause) final ?_
      intro t
      rw [bind_ok f (stays t), stays' t]
    | broken cause within _ =>
      exact .broken ((bind_ok f value).trans cause) (limit ▸ within)
        (completes_bind stays (hf a d))
  | refused cause final stays =>
    exact .refused (bind_error f cause) final fun t => bind_error f (stays t)
  | broken cause within completes =>
    refine .broken (bind_error f cause) within ?_
    -- With the bytes that complete the first reader the second one may break off in turn.
    obtain ⟨t, ht⟩ := completes
    cases hr (c.extend t) with
    | read _ _ stays =>
      obtain ⟨t', ht'⟩ := completes_bind stays (hf _ _)
      exact ⟨t ++ t', by rwa [← Cursor.extend_extend]⟩
    | refused cause' final =>
      refine ⟨t, ?_⟩
      rw [bind_error f cause']
      exact not_breaksOff_error final
    | broken cause' => exact absurd ⟨_, cause'⟩ ht

theorem incremental_lift (x : Except DecodeError α) (hx : ¬ BreaksOff x) :
    Incremental (liftM x) := by
  intro c
  cases x with
  | ok a => exact .read rfl rfl fun _ => rfl
  | error e =>
    refine .refused (e := e) rfl ?_ fun _ => rfl
    intro o ho
    exact hx ⟨o, by rw [ho]⟩

theorem incremental_fail {e : DecodeError} (h : ∀ o, e ≠ .unexpectedEnd o) :
    Incremental (fail e : Reader α) :=
  incremental_lift (.error e) (not_breaksOff_error h)

theorem incremental_skip (n : Nat) : Incremental (skip n) :=
  incremental_bind (incremental_bytes n) fun _ => incremental_pure ()

theorem incremental_number (n : Nat) : Incremental (number n) :=
  incremental_bind (incremental_bytes n) fun bs => incremental_pure (Bytes.bigEndian bs)

theorem incremental_times {r : Reader Unit} (hr : Incremental r) (n : Nat) :
    Incremental (times r n) := by
  induction n with
  | zero => exact incremental_pure ()
  | succ n ih => exact incremental_bind hr fun _ => ih

end Parts

section Pool

theorem incremental_constant (slot : Nat) : Incremental (ConstantPool.constant slot) := by
  apply incremental_bind (incremental_number 1)
  intro tag
  by_cases h1 : tag = 1
  · simp only [h1, if_true]
    exact incremental_bind (incremental_number 2) fun length =>
      incremental_bind (incremental_bytes length) fun bs => incremental_pure (Slot.text bs)
  by_cases h7 : tag = 7
  · simp only [h7, if_true]
    exact incremental_bind (incremental_number 2) fun name =>
      incremental_pure (Slot.classNamed name)
  by_cases hw : tag = 5 ∨ tag = 6
  · simp only [h1, h7, hw, if_false, if_true]
    exact incremental_bind (incremental_skip 8) fun _ => incremental_pure Slot.wide
  simp only [h1, h7, hw, if_false]
  split
  · rename_i n _
    exact incremental_bind (incremental_skip n) fun _ => incremental_pure Slot.other
  · exact incremental_fail (by simp)

theorem incremental_fill (count : Nat) (pool : ConstantPool) :
    Incremental (ConstantPool.fill count pool) := by
  induction pool using ConstantPool.fill.induct count with
  | case1 pool hlt ih =>
    rw [ConstantPool.fill, if_pos hlt]
    exact incremental_bind (incremental_constant pool.size) ih
  | case2 pool hge =>
    rw [ConstantPool.fill, if_neg hge]
    exact incremental_pure pool

variable (pool : ConstantPool) (i : Nat)

theorem not_breaksOff_textBytes : ¬ BreaksOff (pool.textBytes i) := by
  unfold ConstantPool.textBytes
  split
  · exact not_breaksOff_ok _
  · exact not_breaksOff_error (by simp)

theorem not_breaksOff_text : ¬ BreaksOff (pool.text i) := by
  unfold ConstantPool.text
  cases hb : pool.textBytes i with
  | error e =>
    intro h
    obtain ⟨o, ho⟩ := h
    cases ho
    exact not_breaksOff_textBytes pool i ⟨o, hb⟩
  | ok bs =>
    cases hd : ModifiedUtf8.decode bs with
    | none =>
      simp only [bind, Except.bind, hd]
      exact not_breaksOff_error (by simp)
    | some s =>
      simp only [bind, Except.bind, hd]
      exact not_breaksOff_ok s

theorem not_breaksOff_className : ¬ BreaksOff (pool.className i) := by
  unfold ConstantPool.className
  split
  · exact not_breaksOff_text pool _
  · exact not_breaksOff_error (by simp)

end Pool

section Header

theorem incremental_expectMagic : Incremental expectMagic := by
  apply incremental_bind (incremental_number 4)
  intro found
  split
  · exact incremental_fail (by simp)
  · exact incremental_pure ()

theorem incremental_skipAttribute : Incremental skipAttribute :=
  incremental_bind (incremental_skip 2) fun _ =>
    incremental_bind (incremental_number 4) incremental_skip

theorem incremental_skipMember : Incremental skipMember :=
  incremental_bind (incremental_skip 2) fun _ => incremental_bind (incremental_skip 2) fun _ =>
    incremental_bind (incremental_skip 2) fun _ =>
    incremental_bind (incremental_number 2) (incremental_times incremental_skipAttribute)

theorem incremental_classAttribute (pool : ConstantPool) (sourceFile : Option String) :
    Incremental (classAttribute pool sourceFile) := by
  apply incremental_bind (incremental_number 2)
  intro name
  apply incremental_bind (incremental_number 4)
  intro length
  apply incremental_bind (incremental_lift _ (not_breaksOff_textBytes pool name))
  intro text
  split
  · exact incremental_bind (incremental_skip length) fun _ => incremental_pure sourceFile
  split
  · exact incremental_fail (by simp)
  · exact incremental_bind (incremental_number 2) fun value =>
      incremental_bind (incremental_lift _ (not_breaksOff_text pool value)) fun s =>
      incremental_pure (some s)

theorem incremental_classAttributes (pool : ConstantPool) (n : Nat) (sourceFile : Option String) :
    Incremental (classAttributes pool n sourceFile) := by
  induction n generalizing sourceFile with
  | zero => exact incremental_pure sourceFile
  | succ n ih => exact incremental_bind (incremental_classAttribute pool sourceFile) ih

theorem incremental_pool : Incremental ConstantPool.read :=
  incremental_bind (incremental_number 2) fun count => incremental_fill count #[.unusable]

theorem incremental_header : Incremental header :=
  incremental_bind incremental_expectMagic fun _ =>
  incremental_bind (incremental_skip 2) fun _ => incremental_bind (incremental_skip 2) fun _ =>
  incremental_bind incremental_pool fun pool =>
  incremental_bind (incremental_skip 2) fun _ =>
  incremental_bind (incremental_number 2) fun thisClass =>
  incremental_bind (incremental_skip 2) fun _ =>
  incremental_bind (incremental_number 2) fun interfaces =>
  incremental_bind (incremental_skip (2 * interfaces)) fun _ =>
  incremental_bind (incremental_number 2) fun fields =>
  incremental_bind (incremental_times incremental_skipMember fields) fun _ =>
  incremental_bind (incremental_number 2) fun methods =>
  incremental_bind (incremental_times incremental_skipMember methods) fun _ =>
  incremental_bind (incremental_number 2) fun attributes =>
  incremental_bind (incremental_classAttributes pool attributes none) fun sourceFile =>
  incremental_bind (incremental_lift _ (not_breaksOff_className pool thisClass)) fun name =>
  incremental_pure (⟨dotted name, sourceFile⟩ : Header)

end Header

end Reader

end JarIndex.ClassFile
