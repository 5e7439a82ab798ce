import TAlib.Common.BufferRefinement

/-!
What append does when it is short of room, for lengths of all 64 bits. makeSpace
takes the length through an int, so from 2^31 on it asks for another number of
bytes than append needs. It is still right where sliding the content down frees
enough and the other number does not make it resize the vector.
-/

namespace TAlib

open Foundation

namespace Buffer

/-- The buffers that a constructor and the calls after it lead to. -/
def Reachable (b : Buffer) : Prop :=
  ∃ initialSize b₀ ops, new initialSize = .ok b₀ ∧ run exec b₀ ops = .ok b

/-- The first statement of append returns with the room that is needed, the content is
as before, the indices are within the vector, and then append returns too. -/
def Grows (b : Buffer) (data : Bytes) : Prop :=
  ∃ m, b.ensureWritable data.length = .ok m ∧ data.length ≤ m.writableBytes ∧
    m.readable = b.readable ∧ m.writerIndex ≤ m.buffer.length ∧ b.writerIndex ≤ m.buffer.length ∧
    ∃ b', b.append data = .ok b'

/-- The length as makeSpace sees it is not so large that the vector is resized to it. -/
def Slides (len : Nat) : Prop := len % 2 ^ 32 < 2 ^ 31 ∨ 2 ^ 32 - kCheapPrepend ≤ len % 2 ^ 32

instance (len : Nat) : Decidable (Slides len) := inferInstanceAs (Decidable (_ ∨ _))

/-- When the room for an append is found: the writer index is within the vector, and
the length fits an int, or the room is there, or sliding the content makes it. -/
def GrowsFor (b : Buffer) (len : Nat) : Prop :=
  b.writerIndex ≤ b.buffer.length ∧
    (len ≤ intMax ∨ len ≤ b.writableBytes ∨
      (len + kCheapPrepend ≤ b.writableBytes + b.readerIndex ∧ Slides len))

instance (b : Buffer) (len : Nat) : Decidable (b.GrowsFor len) :=
  inferInstanceAs (Decidable (_ ∧ _))

section Reachable

/-- A vector that is shorter than the indices, from a size that wraps in the
constructor. -/
structure Wrapped (b : Buffer) : Prop where
  reader_eq : b.readerIndex = kCheapPrepend
  writer_eq : b.writerIndex = kCheapPrepend
  short : b.buffer.length < kCheapPrepend

variable {b b' : Buffer}

/-- A constructor that returned has both indices behind the prepend area. -/
theorem new_ok {initialSize : Nat} (h : new initialSize = .ok b) :
    b.readerIndex = kCheapPrepend ∧ b.writerIndex = kCheapPrepend ∧
      b.buffer.length = sizeAdd kCheapPrepend initialSize ∧ b.buffer.length ≤ maxSize := by
  unfold new at h
  split at h
  · cases h
  · rename_i hmax
    simp only [bind_eq_ok] at h
    obtain ⟨_, _, _, _, _, _, h⟩ := h
    cases h
    have hlen : (List.replicate (sizeAdd kCheapPrepend initialSize) (0 : UInt8)).length =
        sizeAdd kCheapPrepend initialSize := List.length_replicate
    exact ⟨rfl, rfl, hlen, hlen.le.trans (Nat.le_of_not_lt hmax)⟩

theorem new_valid_or_wrapped {initialSize : Nat} (h : new initialSize = .ok b) :
    b.Valid ∨ b.Wrapped := by
  obtain ⟨hreader, hwriter, -, hmax⟩ := new_ok h
  by_cases hsize : kCheapPrepend ≤ b.buffer.length
  · exact .inl ⟨hreader.ge, by rw [hreader, hwriter], hwriter ▸ hsize, hmax⟩
  · exact .inr ⟨hreader, hwriter, Nat.lt_of_not_le hsize⟩

/-- A call that returned kept the invariant. -/
theorem exec_valid (hv : b.Valid) {op : Op} (h : b.exec op = .ok b') : b'.Valid := by
  cases op with
  | append data => exact (append_ok hv h).1
  | hasWritten data =>
      obtain ⟨mem, hmem, h⟩ := bind_eq_ok.mp h
      obtain ⟨hok, hv', -⟩ := write_hasWritten hv hmem
      cases hok.symm.trans h
      exact hv'
  | unwrite len =>
      obtain ⟨_, hlen, -⟩ := bind_eq_ok.mp h
      obtain ⟨m, hm, hv', -⟩ := unwrite_spec hv (require_eq_ok.mp hlen)
      cases hm.symm.trans h
      exact hv'
  | retrieve len =>
      obtain ⟨_, hlen, -⟩ := bind_eq_ok.mp h
      obtain ⟨m, hm, hv', -⟩ := retrieve_spec hv (require_eq_ok.mp hlen)
      cases hm.symm.trans h
      exact hv'
  | retrieveUntil offset =>
      obtain ⟨_, hpeek, hrest⟩ := bind_eq_ok.mp h
      obtain ⟨_, hend, -⟩ := bind_eq_ok.mp hrest
      obtain ⟨m, hm, hv', -⟩ :=
        retrieveUntil_spec hv (require_eq_ok.mp hpeek) (require_eq_ok.mp hend)
      cases hm.symm.trans h
      exact hv'
  | retrieveAll =>
      cases h
      exact (retrieveAll_valid hv).1
  | retrieveAsString len =>
      obtain ⟨r, hr, h⟩ := bind_eq_ok.mp h
      obtain ⟨_, hlen, -⟩ := bind_eq_ok.mp hr
      obtain ⟨m, hm, hv', -⟩ := retrieveAsString_spec hv (require_eq_ok.mp hlen)
      cases hm.symm.trans hr
      cases h
      exact hv'
  | readFd result => exact (readFd_ok hv h).1

namespace Wrapped

theorem readableBytes_eq (hw : b.Wrapped) : b.readableBytes = 0 := by
  rw [readableBytes, hw.reader_eq, hw.writer_eq]
  decide

theorem writableBytes_ge (hw : b.Wrapped) : maxSize < b.writableBytes := by
  have hshort := hw.short
  rw [writableBytes, hw.writer_eq, sizeSub]
  unfold kCheapPrepend maxSize at *
  omega

theorem overwrite_error (hw : b.Wrapped) (data : Bytes) :
    overwrite b.buffer b.writerIndex data = .error .outOfBounds := by
  have hshort := hw.short
  rw [overwrite, hw.writer_eq, if_neg (by omega)]

theorem retrieve_eq (hw : b.Wrapped) {len : Nat} (h : b.retrieve len = .ok b') :
    b' = b.retrieveAll := by
  obtain ⟨_, hlen, h⟩ := bind_eq_ok.mp h
  rw [require_eq_ok, hw.readableBytes_eq] at hlen
  rw [hw.readableBytes_eq, if_neg (by omega)] at h
  cases h
  rfl

theorem retrieveAll (hw : b.Wrapped) : b.retrieveAll.Wrapped := ⟨rfl, rfl, hw.short⟩

/-- Nothing can be appended. -/
theorem append_ne_ok (hw : b.Wrapped) (data : Bytes) : b.append data ≠ .ok b' := by
  intro h
  obtain ⟨m, hm, h⟩ := bind_eq_ok.mp h
  obtain ⟨_, -, h⟩ := bind_eq_ok.mp h
  obtain ⟨mem, hmem, -⟩ := bind_eq_ok.mp h
  rw [ensureWritable] at hm
  split at hm
  · rename_i hlong
    have hover := (overwrite_ok hmem).1
    rw [makeSpace] at hm
    split at hm
    · rw [resize] at hm
      split at hm
      · rename_i hmax
        cases hm
        have hlen := hw.writableBytes_ge
        simp only [List.length_append, List.length_take, List.length_replicate] at hover
        omega
      · cases hm
    · obtain ⟨_, hreader, -⟩ := bind_eq_ok.mp hm
      rw [require_eq_ok, hw.reader_eq] at hreader
      omega
  · cases hm
    rw [hw.overwrite_error] at hmem
    cases hmem

theorem exec_wrapped (hw : b.Wrapped) {op : Op} (h : b.exec op = .ok b') : b'.Wrapped := by
  cases op with
  | append data => exact absurd h (hw.append_ne_ok data)
  | hasWritten data =>
      obtain ⟨mem, hmem, -⟩ := bind_eq_ok.mp h
      rw [hw.overwrite_error] at hmem
      cases hmem
  | unwrite len =>
      obtain ⟨_, hlen, h⟩ := bind_eq_ok.mp h
      rw [require_eq_ok, hw.readableBytes_eq] at hlen
      cases h
      refine ⟨hw.reader_eq, ?_, hw.short⟩
      change sizeSub b.writerIndex len = kCheapPrepend
      rw [hw.writer_eq, Nat.le_zero.mp hlen]
      decide
  | retrieve len => exact hw.retrieve_eq h ▸ hw.retrieveAll
  | retrieveUntil offset =>
      obtain ⟨_, _, h⟩ := bind_eq_ok.mp h
      obtain ⟨_, _, h⟩ := bind_eq_ok.mp h
      exact hw.retrieve_eq h ▸ hw.retrieveAll
  | retrieveAll =>
      cases h
      exact hw.retrieveAll
  | retrieveAsString len =>
      obtain ⟨r, hr, h⟩ := bind_eq_ok.mp h
      obtain ⟨_, _, hr⟩ := bind_eq_ok.mp hr
      obtain ⟨m, hm, hr⟩ := bind_eq_ok.mp hr
      cases hr
      cases h
      exact hw.retrieve_eq hm ▸ hw.retrieveAll
  | readFd result =>
      cases result with
      | error _ =>
          cases h
          exact hw
      | data bytes =>
          obtain ⟨mem, hmem, -⟩ := bind_eq_ok.mp h
          rw [hw.overwrite_error] at hmem
          cases hmem

end Wrapped

theorem Reachable.valid_or_wrapped (h : b.Reachable) : b.Valid ∨ b.Wrapped := by
  obtain ⟨initialSize, b₀, ops, hnew, hrun⟩ := h
  refine run_invariant_of_step (I := fun b => b.Valid ∨ b.Wrapped) (fun s op t hs ht => ?_)
    (new_valid_or_wrapped hnew) hrun
  exact hs.imp (fun hv => exec_valid hv ht) fun hw => hw.exec_wrapped ht

end Reachable

section Growth

variable {b : Buffer} {data : Bytes}

theorem resize_length {n : Nat} {m : Buffer} (h : b.resize n = .ok m) :
    n ≤ maxSize ∧ m.buffer.length = n ∧ m.writerIndex = b.writerIndex := by
  unfold resize at h
  split at h
  · rename_i hmax
    cases h
    refine ⟨hmax, ?_, rfl⟩
    simp only [List.length_append, List.length_take, List.length_replicate]
    omega
  · cases h

/-- The size that makeSpace asks for is that of another length: it lies before the writer
index or before the end of what is to be appended, unless it is no size of a vector. -/
theorem size_lt_of_intMax_lt {writer len : Nat} (hint : intMax < len)
    (hmax : writer + len ≤ maxSize)
    (hsize : sizeAdd writer (ofInt (toInt len)) ≤ maxSize) :
    sizeAdd writer (ofInt (toInt len)) < writer + len := by
  rw [ofInt_toInt_eq] at hsize ⊢
  unfold intMax at hint
  unfold maxSize at hmax hsize
  unfold sizeAdd at hsize ⊢
  split
  · omega
  · rename_i hneg
    rw [if_neg hneg] at hsize
    omega

/-- Whether makeSpace slides depends on the low 32 bits of the length. -/
theorem slides_iff {room len : Nat} (hroom : len + kCheapPrepend ≤ room) (hmax : room ≤ maxSize) :
    ¬ room < sizeAdd (ofInt (toInt len)) kCheapPrepend ↔ Slides len := by
  rw [ofInt_toInt_eq, Slides]
  unfold kCheapPrepend at *
  unfold maxSize at hmax
  unfold sizeAdd
  split
  · omega
  · omega

/-- A length from 2^31 on gets its room from sliding or not at all. -/
theorem makeSpace_large (hv : b.Valid) {len : Nat} (hint : intMax < len)
    (hlt : b.writableBytes < len)
    (hmax : b.writerIndex + len ≤ maxSize) :
    (∃ m, b.makeSpace (toInt len) = .ok m ∧ len ≤ m.writableBytes ∧
      m.writerIndex ≤ m.buffer.length) ↔
      len + kCheapPrepend ≤ b.writableBytes + b.readerIndex ∧ Slides len := by
  have hr := hv.reader_le
  have hw := hv.writer_le
  have hs := hv.size_le
  have hwb := hv.writableBytes_eq
  have hrb := hv.readableBytes_eq
  have hsum : sizeAdd b.writableBytes b.prependableBytes = b.writableBytes + b.readerIndex :=
    sizeAdd_of_lt (by unfold maxSize at hs; unfold prependableBytes; omega)
  have hroom (m : Buffer) (hm : m.buffer.length = b.buffer.length)
      (hwriter : m.writerIndex = kCheapPrepend + b.readableBytes) (hmv : m.Valid) :
      m.writableBytes + kCheapPrepend = b.writableBytes + b.readerIndex := by
    rw [hmv.writableBytes_eq, hm, hwriter]
    have := hmv.writer_le
    omega
  constructor
  · rintro ⟨m, hm, hlen, hwithin⟩
    by_cases hgrow : b.writableBytes + b.readerIndex < sizeAdd (ofInt (toInt len)) kCheapPrepend
    · have hresize : b.resize (sizeAdd b.writerIndex (ofInt (toInt len))) = .ok m := by
        rw [← hm, makeSpace, hsum, if_pos hgrow]
      obtain ⟨hsize, hlength, hwriter⟩ := resize_length hresize
      have hshort := size_lt_of_intMax_lt hint hmax hsize
      obtain ⟨hmv, -⟩ := resize_ok hv hresize hwithin
      rw [hmv.writableBytes_eq] at hlen
      omega
    · have hreader : kCheapPrepend < b.readerIndex := by
        rw [makeSpace, hsum, if_neg hgrow] at hm
        obtain ⟨_, hreader, -⟩ := bind_eq_ok.mp hm
        exact require_eq_ok.mp hreader
      obtain ⟨m', hm', hmv, -, hlength, hwriter⟩ := @makeSpace_slides b hv (toInt len)
        (by rw [hsum]; exact hgrow) hreader
      cases hm.symm.trans hm'
      have hsame := hroom m hlength hwriter hmv
      have hle : len + kCheapPrepend ≤ b.writableBytes + b.readerIndex := by omega
      exact ⟨hle, (slides_iff hle (by omega)).mp hgrow⟩
  · rintro ⟨hle, hslides⟩
    have hgrow := (slides_iff hle (by omega)).mpr hslides
    obtain ⟨m, hm, hmv, -, hlength, hwriter⟩ := @makeSpace_slides b hv (toInt len)
      (by rw [hsum]; exact hgrow) (by omega)
    have hsame := hroom m hlength hwriter hmv
    exact ⟨m, hm, by omega, hmv.writer_le⟩

/-- Room that was found is all the rest of append needs. -/
theorem grows_of_ensureWritable (hv : b.Valid) {m : Buffer}
    (hm : b.ensureWritable data.length = .ok m) (hlen : data.length ≤ m.writableBytes)
    (hwithin : m.writerIndex ≤ m.buffer.length) : b.Grows data := by
  obtain ⟨hmv, hread, hold⟩ := ensureWritable_ok hv hm hwithin
  have hroom : m.writerIndex + data.length ≤ m.buffer.length := by
    rw [hmv.writableBytes_eq] at hlen
    omega
  obtain ⟨b', hb', -⟩ := append_of_room hm hmv hroom
  exact ⟨m, hm, hlen, hread, hwithin, hold, b', hb'⟩

theorem grows_iff_of_valid (hv : b.Valid) (hmax : b.writerIndex + data.length ≤ maxSize) :
    b.Grows data ↔ b.GrowsFor data.length := by
  constructor
  · rintro ⟨m, hm, hlen, -, hwithin, -⟩
    refine ⟨hv.writer_le, ?_⟩
    by_cases hint : data.length ≤ intMax
    · exact .inl hint
    by_cases hfit : data.length ≤ b.writableBytes
    · exact .inr (.inl hfit)
    · rw [ensureWritable, if_pos (Nat.lt_of_not_le hfit)] at hm
      exact .inr (.inr ((makeSpace_large hv (Nat.lt_of_not_le hint) (Nat.lt_of_not_le hfit) hmax).mp
        ⟨m, hm, hlen, hwithin⟩))
  · rintro ⟨-, hlen⟩
    by_cases hint : data.length ≤ intMax
    · obtain ⟨m, hm, hmv, -, hroom, -⟩ := ensureWritable_spec hv hint hmax
      refine grows_of_ensureWritable hv hm ?_ hmv.writer_le
      rw [hmv.writableBytes_eq]
      omega
    by_cases hfit : data.length ≤ b.writableBytes
    · exact grows_of_ensureWritable hv (if_neg (Nat.not_lt.mpr hfit)) hfit hv.writer_le
    · have hslide := (hlen.resolve_left hint).resolve_left hfit
      obtain ⟨m, hm, hmlen, hwithin⟩ :=
        (makeSpace_large hv (Nat.lt_of_not_le hint) (Nat.lt_of_not_le hfit) hmax).mpr hslide
      exact grows_of_ensureWritable hv ((if_pos (Nat.lt_of_not_le hfit)).trans hm) hmlen hwithin

theorem Wrapped.not_grows (hw : b.Wrapped) : ¬ b.Grows data := by
  rintro ⟨_, _, _, _, _, _, b', hb'⟩
  exact hw.append_ne_ok data hb'

theorem Wrapped.not_growsFor (hw : b.Wrapped) {len : Nat} : ¬ b.GrowsFor len := by
  rintro ⟨hwithin, -⟩
  rw [hw.writer_eq] at hwithin
  exact Nat.not_le_of_lt hw.short hwithin

/-- In every buffer that can be reached, for every length up to the limit of the vector:
append finds its room exactly if the writer index is within the vector and the length fits
an int, or the room is there, or sliding makes it. -/
theorem grows_iff (hb : b.Reachable) (hmax : b.writerIndex + data.length ≤ maxSize) :
    b.Grows data ↔ b.GrowsFor data.length := by
  obtain hv | hw := hb.valid_or_wrapped
  · exact grows_iff_of_valid hv hmax
  · exact iff_of_false hw.not_grows hw.not_growsFor

/-- A buffer of four bytes that has to grow. -/
theorem grows_iff_short : ∃ b, new 4 = .ok b ∧ b.Reachable ∧
    b.writerIndex + [1, 2, 3, 4, 5].length ≤ maxSize ∧
    (b.Grows [1, 2, 3, 4, 5] ↔ b.GrowsFor 5) := by
  obtain ⟨b, hb, -, -, hwriter⟩ := @new_spec 4 (by decide)
  have hreach : b.Reachable := ⟨4, b, [], hb, rfl⟩
  have hmax : b.writerIndex + [1, 2, 3, 4, 5].length ≤ maxSize := by
    rw [hwriter]
    decide
  exact ⟨b, hb, hreach, hmax, grows_iff hreach hmax⟩

/-- In a new buffer a length of 2^31 makes the vector throw, and one of 2^32 fails the
assert of makeSpace. -/
theorem not_grows_above_int : ∃ b, new kInitialSize = .ok b ∧ b.Reachable ∧
    b.writerIndex + 2 ^ 31 ≤ maxSize ∧ b.writerIndex + 2 ^ 32 ≤ maxSize ∧
    b.append (List.replicate (2 ^ 31) 0) = .error .lengthError ∧
    b.append (List.replicate (2 ^ 32) 0) = .error (.assertion .makeSpaceReader) ∧
    ¬ b.Grows (List.replicate (2 ^ 31) 0) ∧ ¬ b.Grows (List.replicate (2 ^ 32) 0) := by
  obtain ⟨b, hb, hv, -⟩ := @new_spec kInitialSize (by decide)
  obtain ⟨hreader, hwriter, hlength, -⟩ := new_ok hb
  have hwb : b.writableBytes = kInitialSize := by
    rw [hv.writableBytes_eq, hlength, hwriter]
    decide
  have hthrows : b.append (List.replicate (2 ^ 31) 0) = .error .lengthError := by
    rw [append, List.length_replicate, ensureWritable, hwb, if_pos (by decide), makeSpace, hwb,
      prependableBytes, hreader, if_pos (by decide), hwriter, resize, if_neg (by decide)]
    rfl
  have hasserts : b.append (List.replicate (2 ^ 32) 0) = .error (.assertion .makeSpaceReader) := by
    rw [append, List.length_replicate, ensureWritable, hwb, if_pos (by decide), makeSpace, hwb,
      prependableBytes, hreader, if_neg (by decide), require_of_false (by decide)]
    rfl
  refine ⟨b, hb, ⟨kInitialSize, b, [], hb, rfl⟩, ?_, ?_, hthrows, hasserts, ?_, ?_⟩
  · rw [hwriter]
    decide
  · rw [hwriter]
    decide
  · rintro ⟨_, _, _, _, _, _, _, hok⟩
    cases hthrows.symm.trans hok
  · rintro ⟨_, _, _, _, _, _, _, hok⟩
    cases hasserts.symm.trans hok

end Growth

end Buffer
end TAlib
