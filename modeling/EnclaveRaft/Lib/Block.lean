import Mathlib.Algebra.Group.Nat.Defs
import Mathlib.Data.List.Basic
import Mathlib.Data.Nat.Basic

/-!
# Blocks of bytes with a position

Encoders and decoders that work on a block of bytes and move a position through it.

* `leBytes` and `leNat` are numbers as bytes, the lowest byte first.
* `Block cap` is a block of less than `cap` bytes with a position in it, and `Scan` the monad of
  programs that work on one.
* `Parses p bs a` says that `p` reads exactly `bs` and returns `a`, wherever `bs` stands in a block
  and whatever comes after it; `Emits p bs` says that `p` writes exactly `bs` wherever there is room.
  Both have a rule for each construct of the monad, so the round trip of a format follows its text.
-/

/-! ## Numbers -/

/-- A number in `k` bytes. -/
def leBytes : Nat → Nat → List UInt8
  | 0, _ => []
  | k + 1, n => UInt8.ofNat n :: leBytes k (n / 256)

def leNat : List UInt8 → Nat
  | [] => 0
  | b :: bs => b.toNat + 256 * leNat bs

@[simp] theorem length_leBytes (k n : Nat) : (leBytes k n).length = k := by
  induction k generalizing n with
  | zero => rfl
  | succ k ih => simp [leBytes, ih]

theorem leNat_leBytes {k n : Nat} (h : n < 256 ^ k) : leNat (leBytes k n) = n := by
  induction k generalizing n with
  | zero =>
    rw [Nat.pow_zero] at h
    simp [leBytes, leNat]
    omega
  | succ k ih =>
    have hdiv : n / 256 < 256 ^ k := by
      rw [Nat.pow_succ] at h
      exact Nat.div_lt_of_lt_mul (by rw [Nat.mul_comm]; exact h)
    rw [leBytes, leNat, ih hdiv, UInt8.toNat_ofNat']
    omega

theorem leBytes_leNat (bs : List UInt8) : leBytes bs.length (leNat bs) = bs := by
  induction bs with
  | nil => rfl
  | cons b bs ih =>
    have hb := b.toNat_lt
    have hhead : UInt8.ofNat (b.toNat + 256 * leNat bs) = b := by
      apply UInt8.toNat_inj.1
      rw [UInt8.toNat_ofNat']
      omega
    have htail : (b.toNat + 256 * leNat bs) / 256 = leNat bs := by omega
    rw [List.length_cons, leNat, leBytes, hhead, htail, ih]

theorem leNat_lt (bs : List UInt8) : leNat bs < 256 ^ bs.length := by
  induction bs with
  | nil => simp [leNat]
  | cons b bs ih =>
    have hb := b.toNat_lt
    rw [leNat, List.length_cons, Nat.pow_succ]
    omega

/-! ## Blocks -/

/-- A block of less than `cap` bytes, with a position in it. -/
structure Block (cap : Nat) where
  data : List UInt8
  pos : Nat
  size_lt : data.length < cap
  pos_le : pos ≤ data.length

namespace Block

variable {cap : Nat} {c : Block cap} {bs bs' : List UInt8} {n : Nat}

@[ext] theorem ext {c c' : Block cap} (hdata : c.data = c'.data) (hpos : c.pos = c'.pos) :
    c = c' := by
  cases c
  cases c'
  cases hdata
  cases hpos
  rfl

/-- The bytes behind the position. -/
def rest (c : Block cap) : List UInt8 := c.data.drop c.pos

/-- Go to a position, or to the end if it lies behind it. -/
def seek (c : Block cap) (p : Nat) : Block cap :=
  ⟨c.data, min p c.data.length, c.size_lt, Nat.min_le_right _ _⟩

/-- Go on by `n` bytes. -/
def skip (c : Block cap) (n : Nat) : Block cap := c.seek (c.pos + n)

/-- Write bytes at the position, as far as there is room, and go behind them. -/
def put (c : Block cap) (bs : List UInt8) : Block cap :=
  ⟨(c.data.take c.pos ++ bs ++ c.data.drop (c.pos + bs.length)).take c.data.length,
    min (c.pos + bs.length) c.data.length,
    by
      have := c.size_lt
      rw [List.length_take]
      omega,
    by
      have := c.pos_le
      simp only [List.length_take, List.length_append, List.length_drop]
      omega⟩

theorem length_put : (c.put bs).data.length = c.data.length := by
  have := c.pos_le
  simp only [put, List.length_take, List.length_append, List.length_drop]
  omega

theorem length_rest : c.rest.length = c.data.length - c.pos := List.length_drop

theorem pos_skip (h : n ≤ c.rest.length) : (c.skip n).pos = c.pos + n := by
  have := c.pos_le
  rw [length_rest] at h
  exact Nat.min_eq_left (by omega)

@[simp] theorem skip_zero : c.skip 0 = c := ext rfl (Nat.min_eq_left c.pos_le)

theorem skip_skip (m n : Nat) : (c.skip m).skip n = c.skip (m + n) := by
  refine ext rfl ?_
  show min (min (c.pos + m) c.data.length + n) c.data.length = min (c.pos + (m + n)) c.data.length
  omega

theorem rest_skip (h : c.rest = bs ++ bs') : (c.skip bs.length).rest = bs' := by
  have hlen := congrArg List.length h
  rw [List.length_append] at hlen
  rw [rest, pos_skip (by omega)]
  show c.data.drop (c.pos + bs.length) = bs'
  rw [← List.drop_drop]
  change c.rest.drop bs.length = bs'
  rw [h, List.drop_left]

theorem data_put (h : bs.length ≤ c.rest.length) :
    (c.put bs).data = c.data.take c.pos ++ bs ++ c.data.drop (c.pos + bs.length) := by
  have := c.pos_le
  rw [length_rest] at h
  refine List.take_of_length_le ?_
  simp only [List.length_append, List.length_take, List.length_drop]
  omega

theorem pos_put (h : bs.length ≤ c.rest.length) : (c.put bs).pos = c.pos + bs.length := by
  have := c.pos_le
  rw [length_rest] at h
  exact Nat.min_eq_left (by omega)

theorem rest_put (h : bs.length ≤ c.rest.length) : (c.put bs).rest = c.rest.drop bs.length := by
  have hpos := c.pos_le
  rw [rest, data_put h, pos_put h, rest, List.drop_drop]
  rw [length_rest] at h
  refine List.drop_left' ?_
  rw [List.length_append, List.length_take]
  omega

theorem put_nil : c.put [] = c := by
  refine ext ?_ (Nat.min_eq_left c.pos_le)
  rw [data_put (Nat.zero_le _)]
  simp

theorem put_put (h : (bs ++ bs').length ≤ c.rest.length) :
    (c.put bs).put bs' = c.put (bs ++ bs') := by
  have hpos := c.pos_le
  rw [List.length_append] at h
  have hbs : bs.length ≤ c.rest.length := by omega
  have hbs' : bs'.length ≤ (c.put bs).rest.length := by
    rw [rest_put hbs, List.length_drop]
    omega
  have hall : (bs ++ bs').length ≤ c.rest.length := by
    rw [List.length_append]
    exact h
  rw [length_rest] at h
  have hhead : (c.data.take c.pos ++ bs).length = c.pos + bs.length := by
    rw [List.length_append, List.length_take]
    omega
  have htail : (c.put bs).data.drop ((c.put bs).pos + bs'.length) =
      c.data.drop (c.pos + (bs ++ bs').length) := by
    rw [← List.drop_drop]
    change (c.put bs).rest.drop bs'.length = _
    rw [rest_put hbs, rest, List.drop_drop, List.drop_drop, List.length_append]
  refine ext ?_ ?_
  · rw [data_put hbs', data_put hall, htail, pos_put hbs, data_put hbs, List.take_left' hhead,
      List.append_assoc _ bs bs']
  · rw [pos_put hbs', pos_put hall, pos_put hbs, List.length_append, Nat.add_assoc]

/-- A block of `n` bytes that is written in full. -/
theorem data_put_of_length (hpos : c.pos = 0) (h : bs.length = c.data.length) :
    (c.put bs).data = bs := by
  rw [data_put (by rw [length_rest]; omega), hpos, h]
  simp

end Block

/-! ## Programs -/

/-- Programs that work on a block and may throw. -/
abbrev Scan (cap : Nat) (ε : Type) : Type → Type := StateT (Block cap) (Except ε)

section Scan

variable {cap : Nat} {ε α β : Type} {bs bs' : List UInt8}

/-- `p` reads the bytes `bs` and returns `a`. -/
def Parses (p : Scan cap ε α) (bs : List UInt8) (a : α) : Prop :=
  ∀ c post, c.rest = bs ++ post → p c = .ok (a, c.skip bs.length)

/-- `p` writes the bytes `bs`. -/
def Emits (p : Scan cap ε Unit) (bs : List UInt8) : Prop :=
  ∀ c, bs.length ≤ c.rest.length → p c = .ok ((), c.put bs)

theorem parses_pure (a : α) : Parses (pure a : Scan cap ε α) [] a := by
  intro c post _
  rw [List.length_nil, Block.skip_zero]
  rfl

/-- What follows `p` goes on behind the bytes that `p` has read. -/
theorem Parses.bind_apply {p : Scan cap ε α} {f : α → Scan cap ε β} {a : α} {c : Block cap}
    {post : List UInt8} (hp : Parses p bs a) (hrest : c.rest = bs ++ post) :
    (p >>= f) c = f a (c.skip bs.length) := by
  show (p c >>= fun x => f x.1 x.2) = _
  rw [hp c post hrest]
  rfl

theorem Parses.bind {p : Scan cap ε α} {f : α → Scan cap ε β} {a : α} {b : β}
    (hp : Parses p bs a) (hf : Parses (f a) bs' b) : Parses (p >>= f) (bs ++ bs') b := by
  intro c post hrest
  rw [List.append_assoc] at hrest
  rw [hp.bind_apply hrest, hf _ post (Block.rest_skip hrest), Block.skip_skip, List.length_append]

theorem Parses.bind_pure {p : Scan cap ε α} {f : α → β} {a : α} {b : β} (hp : Parses p bs a)
    (hb : f a = b) : Parses (p >>= fun a => pure (f a)) bs b := by
  rw [← List.append_nil bs, ← hb]
  exact hp.bind (parses_pure _)

/-- `p` throws when it meets the bytes `bs`. -/
def Fails (p : Scan cap ε α) (bs : List UInt8) : Prop :=
  ∀ c post, c.rest = bs ++ post → ∃ e, p c = .error e

theorem Fails.bind {p : Scan cap ε α} {f : α → Scan cap ε β} (hp : Fails p bs) :
    Fails (p >>= f) (bs ++ bs') := by
  intro c post hrest
  rw [List.append_assoc] at hrest
  obtain ⟨e, he⟩ := hp c _ hrest
  refine ⟨e, ?_⟩
  show (p c >>= fun x => f x.1 x.2) = _
  rw [he]
  rfl

theorem Parses.bind_fails {p : Scan cap ε α} {f : α → Scan cap ε β} {a : α}
    (hp : Parses p bs a) (hf : Fails (f a) bs') : Fails (p >>= f) (bs ++ bs') := by
  intro c post hrest
  rw [List.append_assoc] at hrest
  obtain ⟨e, he⟩ := hf _ post (Block.rest_skip hrest)
  exact ⟨e, (hp.bind_apply hrest).trans he⟩

/-- `p` takes `n` bytes, whatever they are, and throws `e` if there are less. -/
structure Takes (p : Scan cap ε α) (n : Nat) (e : ε) : Prop where
  short : ∀ c, c.rest.length < n → p c = .error e
  full : ∀ c, n ≤ c.rest.length → ∃ a, p c = .ok (a, c.skip n)

theorem Takes.map {p : Scan cap ε α} {n : Nat} {e : ε} (hp : Takes p n e) (f : α → β) :
    Takes (p >>= fun a => pure (f a)) n e := by
  refine ⟨fun c hlen => ?_, fun c hlen => ?_⟩
  · show (p c >>= fun x => _) = _
    rw [hp.short c hlen]
    rfl
  · obtain ⟨a, ha⟩ := hp.full c hlen
    refine ⟨f a, ?_⟩
    show (p c >>= fun x => _) = _
    rw [ha]
    rfl

theorem Takes.bind_short {p : Scan cap ε α} {f : α → Scan cap ε β} {m n : Nat} {e : ε}
    (hp : Takes p m e) (hf : ∀ a c, c.rest.length < n → f a c = .error e) {c : Block cap}
    (hlen : c.rest.length < m + n) : (p >>= f) c = .error e := by
  show (p c >>= fun x => f x.1 x.2) = _
  by_cases hm : c.rest.length < m
  · rw [hp.short c hm]
    rfl
  · obtain ⟨a, ha⟩ := hp.full c (Nat.le_of_not_lt hm)
    rw [ha]
    refine hf a _ ?_
    have hsplit := Block.rest_skip (List.take_append_drop m c.rest).symm
    rw [List.length_take_of_le (Nat.le_of_not_lt hm)] at hsplit
    show (c.skip m).rest.length < n
    rw [hsplit, List.length_drop]
    omega

theorem emits_pure : Emits (pure () : Scan cap ε Unit) [] := by
  intro c _
  rw [Block.put_nil]
  rfl

theorem Emits.bind {p : Scan cap ε Unit} {f : Unit → Scan cap ε Unit} (hp : Emits p bs)
    (hf : Emits (f ()) bs') : Emits (p >>= f) (bs ++ bs') := by
  intro c hlen
  have hsum := hlen
  rw [List.length_append] at hsum
  have hbs : bs.length ≤ c.rest.length := by omega
  have hfirst := hp c hbs
  have hsecond := hf (c.put bs) (by rw [Block.rest_put hbs, List.length_drop]; omega)
  rw [Block.put_put hlen] at hsecond
  show (p c >>= fun x => f x.1 x.2) = _
  rw [hfirst]
  exact hsecond

theorem emits_forM {f : α → Scan cap ε Unit} {g : α → List UInt8} (l : List α)
    (h : ∀ a ∈ l, Emits (f a) (g a)) : Emits (l.forM f) (l.flatMap g) := by
  induction l with
  | nil => exact emits_pure
  | cons a l ih =>
    rw [List.flatMap_cons]
    exact (h a (by simp)).bind (ih fun a' ha' => h a' (by simp [ha']))

end Scan
