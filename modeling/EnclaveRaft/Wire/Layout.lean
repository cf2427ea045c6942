import EnclaveRaft.Wire.Memory

/-!
# What a buffer in memory shows

`Shows m b` says that the memory `m` is laid out as the block `b`: the tag fits the size, size and
position are those of `b`, and its bytes stand behind the two fields. The operations of `buffer.cxx`
on such memory do what the operations on blocks say (`Refines`): where there is room, memory shows
the block after the operation, and where there is none, the exception comes before anything is
written.

Only `get` of a whole buffer goes on where the operation on blocks stops.
-/

namespace EnclaveRaft.Wire.Raw

variable {m m' : Ram} {b : Buffer} {bs : Bytes} {n p : Nat}

/-! ## The fields -/

theorem word_eq (m : Ram) : word m = m.load 0 2 + 2 ^ 16 * m.load 2 2 := m.load_add 0 2 2

theorem isBigBlock_eq (m : Ram) : isBigBlock m = decide (2 ^ 31 ≤ word m) := by
  have hlt : word m < 256 ^ 4 := m.load_lt 0 4
  rw [isBigBlock, Nat.testBit_eq_decide_div_mod_eq]
  exact decide_eq_decide.2 (by omega)

/-- Where the bytes of the block begin. -/
def header (m : Ram) : Nat := if isBigBlock m then 8 else 4

theorem four_le_header (m : Ram) : 4 ≤ header m := by
  unfold header
  split <;> omega

theorem data_eq (m : Ram) : data m = header m + pos m := by
  unfold data header pos
  split <;> rfl

/-- To move forward is to set the position, whatever is cut off the sum. -/
theorem mvFwBlock_eq (d : Nat) (m : Ram) : mvFwBlock d m = setBlockPos (pos m + d) m := by
  unfold mvFwBlock setBlockPos pos
  split
  · rfl
  · rw [← Ram.storeNat_mod, ← Ram.storeNat_mod m 2 2 (m.load 2 2 + d)]
    exact congrArg (m.storeNat 2 2) (by omega)

/-- Tag, size and position depend on the fields only. -/
theorem fields_congr (h : ∀ i < header m, m' i = m i) :
    isBigBlock m' = isBigBlock m ∧ size m' = size m ∧ pos m' = pos m := by
  have hload {a k : Nat} (hk : a + k ≤ header m) : m'.load a k = m.load a k :=
    congrArg leNat (Ram.bytes_congr fun i _ hi => h i (hi.trans_le hk))
  have hfour := four_le_header m
  have hword : word m' = word m := hload hfour
  have hbig : isBigBlock m' = isBigBlock m := by rw [isBigBlock, hword, isBigBlock]
  refine ⟨hbig, ?_, ?_⟩
  · rw [size, size, hbig, hword, hload (by omega)]
  · unfold pos
    rw [hbig]
    split
    next htag => exact hload (by rw [header, if_pos htag])
    next => exact hload hfour

/-! ## Showing a block -/

structure Shows (m : Ram) (b : Buffer) : Prop where
  tag : isBigBlock m = decide (0x8000 ≤ b.data.length)
  size : size m = b.data.length
  pos : pos m = b.pos
  bytes : m.bytes (header m) b.data.length = b.data

namespace Shows

theorem avail (h : Shows m b) : avail m = b.rest.length := by
  rw [Raw.avail, h.size, h.pos, usub, if_pos b.pos_le, Block.length_rest]

/-- The bytes behind the position. -/
theorem rest (h : Shows m b) : m.bytes (data m) b.rest.length = b.rest := by
  have hpos := b.pos_le
  rw [data_eq, h.pos, Block.length_rest, ← Ram.drop_bytes hpos, h.bytes]
  rfl

theorem take_rest (h : Shows m b) (hn : n ≤ b.rest.length) :
    m.bytes (data m) n = b.rest.take n := by
  rw [← h.rest, Ram.take_bytes hn]

/-- Memory that differs in the position only. -/
theorem of_fields (h : Shows m b) (hp : p ≤ b.data.length) (htag : isBigBlock m' = isBigBlock m)
    (hsize : Raw.size m' = Raw.size m) (hpos : Raw.pos m' = p)
    (hbytes : ∀ k, m'.bytes (header m) k = m.bytes (header m) k) : Shows m' (b.seek p) := by
  have hseek : (b.seek p).pos = p := Nat.min_eq_left hp
  have hheader : header m' = header m := by rw [header, htag, header]
  refine ⟨htag.trans h.tag, hsize.trans h.size, hpos.trans hseek.symm, ?_⟩
  rw [hheader]
  exact (hbytes _).trans h.bytes

/-- In the big layout the position has a word of its own. In the small one it shares the first word
with the tag, and is too small to reach it. -/
theorem setBlockPos (h : Shows m b) (hp : p ≤ b.data.length) :
    Shows (setBlockPos p m) (b.seek p) := by
  have htag := h.tag
  have hlt := b.size_lt
  cases hbig : isBigBlock m with
  | true =>
    have hset : Raw.setBlockPos p m = m.storeNat 4 4 p := if_pos hbig
    have hword : word (m.storeNat 4 4 p) = word m := Ram.load_storeNat_of_disjoint (by omega)
    have hbig' : isBigBlock (m.storeNat 4 4 p) = true := by
      rw [isBigBlock, hword]
      exact hbig
    have hheader : header m = 8 := if_pos hbig
    rw [hset]
    refine h.of_fields hp (hbig'.trans hbig.symm) ?_ ?_ fun k => ?_
    · rw [Raw.size, Raw.size, if_pos hbig', if_pos hbig, hword]
    · rw [Raw.pos, if_pos hbig', Ram.load_storeNat, Nat.mod_eq_of_lt (by omega)]
    · exact Ram.bytes_storeNat_of_disjoint (.inr hheader.ge)
  | false =>
    have hsmall : b.data.length < 0x8000 := by
      rw [hbig] at htag
      simpa using htag.symm
    have hset : Raw.setBlockPos p m = m.storeNat 2 2 p := if_neg (by simp [hbig])
    have hsize : m.load 0 2 = b.data.length := by
      rw [← h.size, Raw.size, if_neg (by simp [hbig])]
    have hlow : (m.storeNat 2 2 p).load 0 2 = m.load 0 2 :=
      Ram.load_storeNat_of_disjoint (by omega)
    have hhigh : (m.storeNat 2 2 p).load 2 2 = p := by
      rw [Ram.load_storeNat, Nat.mod_eq_of_lt (by omega)]
    have hbig' : isBigBlock (m.storeNat 2 2 p) = false := by
      rw [isBigBlock_eq, word_eq, hlow, hsize, hhigh, decide_eq_false (by omega)]
    have hheader : header m = 4 := if_neg (by simp [hbig])
    rw [hset]
    refine h.of_fields hp (hbig'.trans hbig.symm) ?_ ?_ fun k => ?_
    · rw [Raw.size, Raw.size, if_neg (by simp [hbig']), if_neg (by simp [hbig]), hlow]
    · rw [Raw.pos, if_neg (by simp [hbig']), hhigh]
    · exact Ram.bytes_storeNat_of_disjoint (.inr hheader.ge)

theorem mvFwBlock (h : Shows m b) (hn : n ≤ b.rest.length) : Shows (mvFwBlock n m) (b.skip n) := by
  have hpos := b.pos_le
  rw [Block.length_rest] at hn
  rw [mvFwBlock_eq, h.pos]
  exact h.setBlockPos (by omega)

/-- Bytes written at the position, which stays. -/
theorem store (h : Shows m b) (hbs : bs.length ≤ b.rest.length) :
    Shows (m.store (data m) bs) ((b.put bs).seek b.pos) := by
  have hpos := b.pos_le
  have hlen : (b.put bs).data.length = b.data.length := Block.length_put
  have hroom := hbs
  rw [Block.length_rest] at hroom
  have hbelow : ∀ i < header m, m.store (data m) bs i = m i := fun i hi =>
    Ram.store_below (by rw [data_eq]; omega)
  obtain ⟨htag, hsize, hposn⟩ := fields_congr hbelow
  refine ⟨?_, ?_, ?_, ?_⟩
  · rw [htag, h.tag]
    exact congrArg (fun k => decide (0x8000 ≤ k)) hlen.symm
  · rw [hsize, h.size]
    exact hlen.symm
  · rw [hposn, h.pos]
    exact (Nat.min_eq_left (hlen ▸ hpos)).symm
  · have hheader : header (m.store (data m) bs) = header m := by rw [header, htag, header]
    show (m.store (data m) bs).bytes (header _) (b.put bs).data.length = (b.put bs).data
    -- the bytes in front of the position, the new ones, and those behind them
    have hsum : b.data.length = b.pos + (bs.length + (b.data.length - (b.pos + bs.length))) := by
      omega
    have hdata : data m = header m + b.pos := by rw [data_eq, h.pos]
    have hbefore : b.data.take b.pos = m.bytes (header m) b.pos := by
      rw [← Ram.take_bytes hpos, h.bytes]
    have hbehind : b.data.drop (b.pos + bs.length) =
        m.bytes (data m + bs.length) (b.data.length - (b.pos + bs.length)) := by
      rw [hdata, Nat.add_assoc, ← Ram.drop_bytes (by omega), h.bytes]
    rw [hlen, hheader, Block.data_put hbs, hbefore, hbehind, List.append_assoc]
    nth_rewrite 1 [hsum]
    rw [Ram.bytes_add, Ram.bytes_add, ← hdata, Ram.bytes_store,
      Ram.bytes_store_of_disjoint (.inl hdata.ge),
      Ram.bytes_store_of_disjoint (.inr (Nat.le_refl _))]

end Shows

/-! ## The invariant -/

/-- The tag fits the size `n`, the size is `n`, and the position is not behind the end. -/
structure Sound (n : Nat) (m : Ram) : Prop where
  tag : isBigBlock m = decide (0x8000 ≤ n)
  size : size m = n
  pos : pos m ≤ n

instance (n : Nat) (m : Ram) : Decidable (Sound n m) :=
  decidable_of_iff (_ ∧ _ ∧ _) ⟨fun h => ⟨h.1, h.2.1, h.2.2⟩, fun h => ⟨h.tag, h.size, h.pos⟩⟩

theorem Shows.sound (h : Shows m b) : Sound b.data.length m := ⟨h.tag, h.size, h.pos ▸ b.pos_le⟩

/-- Sound memory shows a block: its own bytes. -/
theorem Sound.shows (h : Sound n m) (hn : n < 2 ^ 31) : ∃ b, Shows m b ∧ b.data.length = n := by
  have hlen : (m.bytes (header m) n).length = n := m.length_bytes _ n
  refine ⟨⟨m.bytes (header m) n, Raw.pos m, hlen.symm ▸ hn, hlen.symm ▸ h.pos⟩, ?_, hlen⟩
  exact ⟨hlen.symm ▸ h.tag, hlen.symm ▸ h.size, rfl, congrArg (m.bytes (header m)) hlen⟩

theorem initSBlock_sound (hn : n < 0x8000) (fresh : Ram) :
    Sound n (initSBlock n fresh) ∧ pos (initSBlock n fresh) = 0 := by
  have hlow : (initSBlock n fresh).load 0 2 = n := by
    rw [initSBlock, Ram.load_storeNat_of_disjoint (by omega), Ram.load_storeNat,
      Nat.mod_eq_of_lt (by omega)]
  have hhigh : (initSBlock n fresh).load 2 2 = 0 := Ram.load_storeNat _ 2 2 0
  have htag : isBigBlock (initSBlock n fresh) = false := by
    rw [isBigBlock_eq, word_eq, hlow, hhigh, decide_eq_false (by omega)]
  have hpos : pos (initSBlock n fresh) = 0 := by rw [pos, htag]; exact hhigh
  refine ⟨⟨?_, ?_, ?_⟩, hpos⟩
  · rw [htag, decide_eq_false (by omega)]
  · rw [size, htag]
    exact hlow
  · rw [hpos]
    exact Nat.zero_le n

theorem initBBlock_sound (hbig : 0x8000 ≤ n) (hn : n < 2 ^ 31) (fresh : Ram) :
    Sound n (initBBlock n fresh) ∧ pos (initBBlock n fresh) = 0 := by
  have hbefore : word ((fresh.storeNat 0 4 n).storeNat 4 4 0) = n := by
    rw [word, Ram.load_storeNat_of_disjoint (by omega), Ram.load_storeNat,
      Nat.mod_eq_of_lt (by omega)]
  have hword : word (initBBlock n fresh) = 2 ^ 31 + n := by
    have hor := Nat.two_pow_add_eq_or_of_lt hn 1
    rw [Nat.mul_one] at hor
    rw [word, initBBlock, Ram.load_storeNat, hbefore, Nat.or_comm, ← hor,
      Nat.mod_eq_of_lt (by omega)]
  have htag : isBigBlock (initBBlock n fresh) = true := by
    rw [isBigBlock_eq, hword, decide_eq_true (by omega)]
  have hpos : pos (initBBlock n fresh) = 0 := by
    rw [pos, htag]
    exact (Ram.load_storeNat_of_disjoint (by omega)).trans (Ram.load_storeNat _ 4 4 0)
  refine ⟨⟨?_, ?_, ?_⟩, hpos⟩
  · rw [htag, decide_eq_true hbig]
  · rw [size, if_pos htag, hword, Buffer.two_pow_add_xor hn]
  · rw [hpos]
    exact Nat.zero_le n

theorem alloc_sound {fresh : Ram} (h : alloc n fresh = .ok m) :
    n < 2 ^ 31 ∧ Sound n m ∧ pos m = 0 := by
  unfold alloc at h
  split at h
  next => cases h
  next hn =>
    have hlt := Nat.lt_of_not_le hn
    split at h
    next hbig => cases h; exact ⟨hlt, initBBlock_sound hbig hlt fresh⟩
    next hbig => cases h; exact ⟨hlt, initSBlock_sound (Nat.lt_of_not_le hbig) fresh⟩

/-! ## Operations -/

/-- Where the operation `y` on blocks succeeds, `x` returns the same on memory that shows the block,
and leaves memory that shows the block afterwards. -/
def Follows {α : Type} (x : RawM α) (y : BufM α) : Prop :=
  ∀ {m b a b'}, Shows m b → y b = .ok (a, b') → ∃ m', Act.Runs x m a m' [] ∧ Shows m' b'

/-- Also, where `y` throws, `x` throws the same and has changed nothing. -/
structure Refines {α : Type} (x : RawM α) (y : BufM α) : Prop where
  follows : Follows x y
  throws : ∀ {m b e}, Shows m b → y b = .error e → x m = ⟨.error e, m, []⟩

theorem follows_pure {α : Type} (a : α) : Follows (pure a) (pure a) := by
  intro m b a' b' h hy
  cases hy
  exact ⟨m, Act.runs_pure, h⟩

theorem Follows.bind {α β : Type} {x : RawM α} {y : BufM α} {f : α → RawM β} {g : α → BufM β}
    (hx : Follows x y) (hf : ∀ a, Follows (f a) (g a)) : Follows (x >>= f) (y >>= g) := by
  intro m b a b' h hy
  cases hyb : y b with
  | error e =>
    have hthrow : (y >>= g) b = .error e := by
      show (y b >>= fun z => g z.1 z.2) = _
      rw [hyb]
      rfl
    cases hthrow.symm.trans hy
  | ok z =>
    have hnext : (y >>= g) b = g z.1 z.2 := by
      show (y b >>= fun z => g z.1 z.2) = _
      rw [hyb]
      rfl
    obtain ⟨m₁, hrun₁, h₁⟩ := hx h hyb
    obtain ⟨m₂, hrun₂, h₂⟩ := hf z.1 h₁ (hnext.symm.trans hy)
    exact ⟨m₂, hrun₁.bind hrun₂, h₂⟩

theorem Shows.putWith {write : Ram → Nat → Ram} (h : Shows m b)
    (hwrite : ∀ m d, write m d = m.store d bs) (hbs : bs.length ≤ b.rest.length) :
    ∃ m', Act.Runs (putWith bs.length write) m () m' [] ∧ Shows m' (b.put bs) := by
  have hlen : (b.put bs).data.length = b.data.length := Block.length_put
  have hpos := b.pos_le
  have hroom := hbs
  rw [Block.length_rest] at hroom
  have hback : (((b.put bs).seek b.pos).skip bs.length) = b.put bs := by
    refine Block.ext rfl ?_
    rw [Block.pos_put hbs]
    show min (min b.pos (b.put bs).data.length + bs.length) (b.put bs).data.length = _
    omega
  have hmove : Shows (Raw.mvFwBlock bs.length (m.store (data m) bs)) (b.put bs) := by
    rw [← hback]
    refine (h.store hbs).mvFwBlock ?_
    rw [Block.length_rest]
    show bs.length ≤ (b.put bs).data.length - min b.pos (b.put bs).data.length
    omega
  refine ⟨_, .get_bind (.of_neg ?_ (.modify_bind ?_)), hmove⟩
  · rw [h.avail]
    exact Nat.not_lt.2 hbs
  · show Act.Runs (Act.modify (Raw.mvFwBlock bs.length)) (write m (data m)) _ _ _
    rw [hwrite]
    exact Act.runs_modify

/-- The writing operations. -/
theorem refines_putWith {write : Ram → Nat → Ram} (hn : bs.length = n)
    (hwrite : ∀ m d, write m d = m.store d bs) : Refines (putWith n write) (put bs) := by
  subst hn
  refine ⟨fun {m b a b'} h hy => ?_, fun {m b e} h hy => ?_⟩
  all_goals rcases Nat.lt_or_ge b.rest.length bs.length with hshort | hroom
  · cases (put_short hshort).symm.trans hy
  · cases (emits_put bs b hroom).symm.trans hy
    exact h.putWith hwrite hroom
  · cases (put_short hshort).symm.trans hy
    rw [putWith, Act.get_bind_apply, if_pos (by rwa [h.avail])]
    rfl
  · cases (emits_put bs b hroom).symm.trans hy

theorem get_of_le (h : n ≤ b.rest.length) : Wire.get n b = .ok (b.rest.take n, b.skip n) := by
  have hparse := parses_get (b.rest.take n) b (b.rest.drop n) (List.take_append_drop ..).symm
  rwa [List.length_take_of_le h] at hparse

/-- The reading operations. -/
theorem refines_getWith {α : Type} {read : Ram → Nat → α} {f : Bytes → α}
    (hread : ∀ m d, read m d = f (m.bytes d n)) :
    Refines (getWith n read) (Wire.get n >>= fun bs => pure (f bs)) := by
  have hget {b : Buffer} (h : n ≤ b.rest.length) :
      (Wire.get n >>= fun bs => pure (f bs)) b = .ok (f (b.rest.take n), b.skip n) := by
    show (Wire.get n b >>= fun z => _) = _
    rw [get_of_le h]
    rfl
  have hshort {b : Buffer} (h : b.rest.length < n) :
      (Wire.get n >>= fun bs => pure (f bs)) b = .error .overflow := by
    show (Wire.get n b >>= fun z => _) = _
    rw [(takes_get n).short b h]
    rfl
  refine ⟨fun {m b a b'} h hy => ?_, fun {m b e} h hy => ?_⟩
  all_goals rcases Nat.lt_or_ge b.rest.length n with hlt | hle
  · cases (hshort hlt).symm.trans hy
  · cases (hget hle).symm.trans hy
    refine ⟨_, .get_bind (.of_neg ?_ (.modify_bind ?_)), h.mvFwBlock hle⟩
    · rw [h.avail]
      exact Nat.not_lt.2 hle
    · rw [← h.take_rest hle, ← hread]
      exact Act.runs_pure
  · cases (hshort hlt).symm.trans hy
    rw [getWith, Act.get_bind_apply, if_pos (by rwa [h.avail])]
    rfl
  · cases (hget hle).symm.trans hy

theorem refines_putByte (x : UInt8) : Refines (putByte x) (Wire.putByte x) :=
  refines_putWith rfl fun _ _ => rfl

/-- Byte `i` of a number. -/
theorem ushiftRight_byte {w : Nat} (x : BitVec w) (i : Nat) :
    (⟨(x >>> (i * 8)).setWidth 8⟩ : UInt8) = UInt8.ofNat (x.toNat / 256 ^ i) := by
  apply UInt8.toNat_inj.1
  have hleft : (x >>> (i * 8)).setWidth 8 = BitVec.ofNat 8 (x.toNat / 256 ^ i) := by
    apply BitVec.eq_of_toNat_eq
    rw [BitVec.toNat_setWidth, BitVec.toNat_ushiftRight, BitVec.toNat_ofNat,
      Nat.shiftRight_eq_div_pow, Nat.mul_comm, Nat.pow_mul]
  rw [hleft]
  rfl

/-- Below the top the two shifts agree. -/
theorem setWidth_sshiftRight {w v k : Nat} (h : k + v ≤ w) (x : BitVec w) :
    (x.sshiftRight k).setWidth v = (x >>> k).setWidth v := by
  refine BitVec.eq_of_getLsbD_eq fun i hi => ?_
  rw [BitVec.getLsbD_setWidth, BitVec.getLsbD_setWidth, BitVec.getLsbD_sshiftRight,
    BitVec.getLsbD_ushiftRight, if_pos (by omega), decide_eq_false (show ¬w ≤ i by omega)]
  rfl

theorem refines_putInt (x : Int32) : Refines (putInt x) (Wire.putInt x) := by
  refine refines_putWith (length_leBytes ..) fun m d => ?_
  rw [Ram.fill_eq_store, leBytes_eq_map]
  refine congrArg (m.store d) (List.map_congr_left fun i hi => ?_)
  have hi := List.mem_range.1 hi
  rw [setWidth_sshiftRight (by omega)]
  exact ushiftRight_byte x.toBitVec i

theorem refines_putUlong (x : UInt64) : Refines (putUlong x) (Wire.putUlong x) := by
  refine refines_putWith (length_leBytes ..) fun m d => ?_
  rw [Ram.fill_eq_store, leBytes_eq_map]
  exact congrArg (m.store d) (List.map_congr_left fun i _ => ushiftRight_byte x.toBitVec i)

theorem refines_putStr (s : Bytes) : Refines (putStr s) (Wire.putStr s) := by
  refine refines_putWith (List.length_append ..) fun m d => ?_
  have hchars : (List.range s.length).map (fun i => s.getD i 0) = s := by
    refine List.ext_getElem? fun i => ?_
    rcases Nat.lt_or_ge i s.length with hi | hi <;> simp [hi]
  rw [Ram.fill_eq_store, hchars, Ram.store_store]

theorem refines_getByte : Refines getByte Wire.getByte := by
  refine refines_getWith (f := fun bs => (leNat bs).toUInt8) fun m d => ?_
  simp [Ram.bytes, leNat]

/-- The shifted additions, which overflow at the top byte, give the number that was cut up. -/
theorem refines_getInt : Refines getInt Wire.getInt := by
  refine refines_getWith (f := fun bs => (leNat bs).toUInt32.toInt32) fun m d => ?_
  rw [Ram.gather_eq]
  rfl

theorem refines_getUlong : Refines getUlong Wire.getUlong := by
  refine refines_getWith (f := fun bs => (leNat bs).toUInt64) fun m d => ?_
  rw [Ram.gather_eq]
  rfl

/-- `memcpy` from a buffer. -/
theorem refines_putBuffer {src : Ram} {c : Buffer} (h : Shows src c) :
    Refines (putBuffer src) (Wire.putBuffer c) := by
  refine refines_putWith h.avail.symm fun m d => ?_
  rw [h.avail, h.rest]

theorem strLen_eq (m : Ram) (d k : Nat) :
    strLen m d k = ((m.bytes d k).takeWhile (· ≠ 0)).length := by
  induction k generalizing d with
  | zero => rfl
  | succ k ih =>
    have hcons : m.bytes d (k + 1) = m d :: m.bytes (d + 1) k := rfl
    rw [strLen, hcons, List.takeWhile_cons]
    by_cases hzero : m d = 0
    · simp [hzero]
    · simp [hzero, ih]

theorem refines_getStr : Refines getStr Wire.getStr := by
  refine ⟨fun {m b a b'} h hy => ?_, fun {m b e} h hy => ?_⟩
  · have hlen : strLen m (data m) (size m - pos m) = (b.rest.takeWhile (· ≠ 0)).length := by
      rw [strLen_eq, h.size, h.pos, ← Block.length_rest, h.rest]
    have hle : (b.rest.takeWhile (· ≠ 0)).length ≤ b.rest.length :=
      (List.takeWhile_prefix _).length_le
    have htake := List.prefix_iff_eq_take.1 (List.takeWhile_prefix (l := b.rest) (· ≠ 0))
    unfold Wire.getStr at hy
    dsimp only at hy
    rw [Buffer.size_eq] at hy
    split at hy
    next hnone =>
      cases hy
      refine ⟨m, .get_bind (.of_pos ?_ Act.runs_pure), h⟩
      rwa [hlen, h.size, h.pos]
    next hsome =>
      have hroom : (b.rest.takeWhile (· ≠ 0)).length + 1 ≤ b.rest.length := by
        rw [Block.length_rest]
        omega
      rw [Buffer.mvFw_eq hroom] at hy
      cases hy
      refine ⟨_, .get_bind (.of_neg ?_ (.modify_bind ?_)), h.mvFwBlock hroom⟩
      · rwa [hlen, h.size, h.pos]
      · rw [hlen, h.take_rest hle, ← htake]
        exact Act.runs_pure
  · unfold Wire.getStr at hy
    dsimp only at hy
    split at hy <;> cases hy

theorem refines_seek (p : Nat) : Refines (seek p) (Wire.seek p) := by
  refine ⟨fun {m b a b'} h hy => ?_, fun {m b e} _ hy => by cases hy⟩
  cases hy
  have hmin : b.seek p = b.seek (if size m < p then size m else p) := by
    refine Block.ext rfl ?_
    show min p b.data.length = min _ b.data.length
    rw [h.size]
    split <;> omega
  refine ⟨_, Act.runs_modify, ?_⟩
  rw [hmin]
  refine h.setBlockPos ?_
  rw [h.size]
  split <;> omega

/-- `memcpy` into a buffer with no more room than there are bytes. -/
theorem Shows.getBuffer {dst : Ram} {c : Buffer} (h : Shows m b) (hdst : Shows dst c)
    (hroom : c.rest.length ≤ b.rest.length) :
    ∃ dst', Act.Runs (getBuffer dst) m dst' (Raw.mvFwBlock c.rest.length m) [] ∧
      Shows dst' ((c.put (b.rest.take c.rest.length)).seek c.pos) := by
  have hlen : (b.rest.take c.rest.length).length = c.rest.length := List.length_take_of_le hroom
  refine ⟨dst.store (data dst) (b.rest.take c.rest.length), .get_bind (.modify_bind ?_),
    hdst.store hlen.le⟩
  rw [hdst.avail, h.take_rest hroom]
  exact Act.runs_pure

/-- What arrives in a buffer. -/
def getBytes (dst : Ram) : RawM Bytes := do
  let dst ← getBuffer dst
  pure (dst.bytes (data dst) (avail dst))

theorem follows_getBytes {dst : Ram} {c : Buffer} (hdst : Shows dst c) :
    Follows (getBytes dst) (Wire.getBuffer c.rest.length) := by
  intro m b a b' h hy
  have hle : c.rest.length ≤ b.rest.length := by
    by_contra hlt
    cases (getBuffer_short (Nat.lt_of_not_le hlt)).symm.trans hy
  have hlen : (b.rest.take c.rest.length).length = c.rest.length := List.length_take_of_le hle
  have hparse := parses_getBuffer (b.rest.take c.rest.length) b (b.rest.drop c.rest.length)
    (List.take_append_drop ..).symm
  rw [hlen] at hparse
  cases hparse.symm.trans hy
  obtain ⟨dst', hrun, hshows⟩ := h.getBuffer hdst hle
  -- what is behind the position of the other buffer was written from end to end
  have hbytes : ((c.put (b.rest.take c.rest.length)).seek c.pos).rest =
      b.rest.take c.rest.length := by
    have hpos := c.pos_le
    have hlength : (c.put (b.rest.take c.rest.length)).data.length = c.data.length :=
      Block.length_put
    have hall : c.data.drop (c.pos + (b.rest.take c.rest.length).length) = [] := by
      rw [hlen, Block.length_rest]
      exact List.drop_of_length_le (by omega)
    show (c.put _).data.drop (min c.pos (c.put _).data.length) = _
    rw [hlength, Nat.min_eq_left hpos, Block.data_put hlen.le, hall, List.append_nil]
    exact List.drop_left' (List.length_take_of_le hpos)
  have hread : dst'.bytes (data dst') (Raw.avail dst') = b.rest.take c.rest.length := by
    rw [hshows.avail, hshows.rest, hbytes]
  refine ⟨_, ?_, h.mvFwBlock hle⟩
  rw [← hread]
  exact hrun.bind Act.runs_pure

/-- `buffer::copy` gives a buffer of its own with what is behind the position. -/
theorem Shows.copy (h : Shows m b) (fresh : Ram) :
    ∃ other c, Act.Runs (copy fresh) m other m [] ∧ Shows other c ∧ c.data = b.rest ∧
      c.pos = 0 := by
  have hlt : b.rest.length < 2 ^ 31 := by
    have := b.size_lt
    rw [Block.length_rest]
    omega
  have halloc : ∃ other, alloc b.rest.length fresh = .ok other := by
    unfold alloc
    rw [if_neg (Nat.not_le.2 hlt)]
    split
    · exact ⟨_, rfl⟩
    · exact ⟨_, rfl⟩
  obtain ⟨other, hother⟩ := halloc
  obtain ⟨-, hsound, hpos⟩ := alloc_sound hother
  obtain ⟨c, hc, hlen⟩ := hsound.shows hlt
  have hzero : c.pos = 0 := hc.pos.symm.trans hpos
  have hroom : b.rest.length ≤ c.rest.length := by
    rw [Block.length_rest (c := c), hzero, hlen]
    exact Nat.le_refl _
  obtain ⟨m₁, hput, h₁⟩ := (refines_putBuffer h).follows hc (emits_put b.rest c hroom)
  obtain ⟨m₂, hseek, h₂⟩ := (refines_seek 0).follows h₁ rfl
  refine ⟨m₂, _, ?_, h₂, Block.data_put_of_length hzero hlen.symm, Nat.zero_min _⟩
  have hrun := hput.bind (f := fun _ => seek 0) hseek
  refine .get_bind ?_
  rw [h.avail, hother]
  show (⟨_, m, []⟩ : Outcome Ram Empty Fault Ram) = _
  rw [show (Raw.putBuffer m >>= fun _ => seek 0) other = _ from hrun]
  rfl

end EnclaveRaft.Wire.Raw
