import TAlib.Common.Buffer

/-!
The buffer refines a queue of bytes. The index invariant is carried by
`Valid`; each operation has one lemma that gives its result on the content,
and nothing outside this module unfolds an operation again. Two kinds of
lemma are kept apart: what a call that returned has done, for every argument,
and under which bounds a call does return.
-/

namespace TAlib

open Foundation

theorem overwrite_ok {mem mem' bytes : Bytes} {pos : Nat}
    (h : overwrite mem pos bytes = .ok mem') :
    pos + bytes.length ≤ mem.length ∧ mem'.length = mem.length ∧
      slice mem' pos (pos + bytes.length) = bytes ∧
      ∀ i j, j ≤ pos → slice mem' i j = slice mem i j := by
  unfold overwrite at h
  split at h
  · rename_i hle
    cases h
    have hpre : (mem.take pos).length = pos := List.length_take_of_le (by omega)
    refine ⟨hle, ?_, ?_, ?_⟩
    · simp only [List.length_append, List.length_drop, hpre]
      omega
    · have hmid := slice_middle (mem.take pos) bytes (mem.drop (pos + bytes.length))
      rwa [hpre] at hmid
    · intro i j hj
      rw [List.append_assoc, slice_append_left _ _ (by omega), slice_take _ hj]
  · cases h

theorem overwrite_of_le (mem : Bytes) (pos : Nat) (bytes : Bytes)
    (h : pos + bytes.length ≤ mem.length) : ∃ mem', overwrite mem pos bytes = .ok mem' :=
  ⟨_, if_pos h⟩

namespace Buffer

/-- The invariant the header draws: 0 <= readerIndex <= writerIndex <= size,
with the prepend area kept and the vector within its limit. -/
structure Valid (b : Buffer) : Prop where
  prepend_le : kCheapPrepend ≤ b.readerIndex
  reader_le : b.readerIndex ≤ b.writerIndex
  writer_le : b.writerIndex ≤ b.buffer.length
  size_le : b.buffer.length ≤ maxSize

theorem readableBytes_of_le {b : Buffer} (hr : b.readerIndex ≤ b.writerIndex)
    (hw : b.writerIndex ≤ maxSize) : b.readableBytes = b.writerIndex - b.readerIndex := by
  unfold maxSize at hw
  exact sizeSub_of_le hr (by omega)

theorem writableBytes_of_le {b : Buffer} (hw : b.writerIndex ≤ b.buffer.length)
    (hs : b.buffer.length ≤ maxSize) : b.writableBytes = b.buffer.length - b.writerIndex := by
  unfold maxSize at hs
  exact sizeSub_of_le hw (by omega)

theorem Valid.readableBytes_eq {b : Buffer} (hv : b.Valid) :
    b.readableBytes = b.writerIndex - b.readerIndex :=
  readableBytes_of_le hv.reader_le (hv.writer_le.trans hv.size_le)

theorem Valid.writableBytes_eq {b : Buffer} (hv : b.Valid) :
    b.writableBytes = b.buffer.length - b.writerIndex :=
  writableBytes_of_le hv.writer_le hv.size_le

theorem Valid.readable_length {b : Buffer} (hv : b.Valid) :
    b.readable.length = b.readableBytes := by
  rw [hv.readableBytes_eq]
  exact slice_length _ _ _ hv.writer_le

/-- A constructor argument within the vector's limit passes the asserts. The
bound matters: from 2^64 - 8 on the sum wraps, the asserts still pass, and the
vector is shorter than the indices. -/
theorem new_spec {initialSize : Nat} (h : kCheapPrepend + initialSize ≤ maxSize) :
    ∃ b, new initialSize = .ok b ∧ b.Valid ∧ b.readable = [] ∧
      b.writerIndex = kCheapPrepend := by
  have hadd : sizeAdd kCheapPrepend initialSize = kCheapPrepend + initialSize := by
    unfold maxSize at h
    exact sizeAdd_of_lt (by omega)
  let b : Buffer := ⟨List.replicate (kCheapPrepend + initialSize) 0, kCheapPrepend, kCheapPrepend⟩
  have hv : b.Valid := by
    refine ⟨Nat.le_refl _, Nat.le_refl _, ?_, ?_⟩
    · simp [b]
    · simpa [b] using h
  have hr : b.readableBytes = 0 := by simp [hv.readableBytes_eq, b]
  have hw : b.writableBytes = initialSize := by simp [hv.writableBytes_eq, b]
  have hp : b.prependableBytes = kCheapPrepend := rfl
  refine ⟨b, ?_, hv, by simp [readable, slice, b], rfl⟩
  simp only [new, hadd, if_neg (Nat.not_lt.mpr h)]
  rw [require_of_true hr, require_of_true hw, require_of_true hp]
  rfl

theorem retrieveAll_valid {b : Buffer} (hv : b.Valid) :
    b.retrieveAll.Valid ∧ b.retrieveAll.readable = [] := by
  have h1 := hv.prepend_le
  have h2 := hv.reader_le
  have h3 := hv.writer_le
  exact ⟨⟨Nat.le_refl _, Nat.le_refl _, h1.trans (h2.trans h3), hv.size_le⟩,
    by simp [readable, retrieveAll, slice]⟩

/-- retrieve within its assert drops from the front. -/
theorem retrieve_spec {b : Buffer} (hv : b.Valid) {len : Nat} (h : len ≤ b.readableBytes) :
    ∃ b', b.retrieve len = .ok b' ∧ b'.Valid ∧ b'.readable = b.readable.drop len ∧
      b'.writerIndex ≤ b.writerIndex := by
  have hrb := hv.readableBytes_eq
  have hlen := hv.readable_length
  have hr := hv.reader_le
  have hw := hv.writer_le
  have hs := hv.size_le
  unfold maxSize at hs
  unfold retrieve
  rw [require_of_true h, ok_bind]
  by_cases hlt : len < b.readableBytes
  · have hadd : sizeAdd b.readerIndex len = b.readerIndex + len := sizeAdd_of_lt (by omega)
    rw [if_pos hlt, hadd]
    refine ⟨_, rfl, ⟨hv.prepend_le.trans (Nat.le_add_right _ _), ?_, hw, hv.size_le⟩, ?_,
      Nat.le_refl _⟩
    · simp only
      omega
    · simp only [readable, slice, List.drop_take, List.drop_drop]
      congr 1
      omega
  · rw [if_neg hlt]
    refine ⟨_, rfl, (retrieveAll_valid hv).1, ?_, hv.prepend_le.trans hr⟩
    rw [(retrieveAll_valid hv).2, List.drop_eq_nil_of_le (by omega)]

/-- The same for a retrieve that is known to have returned. -/
theorem retrieve_ok {b b' : Buffer} {n : Nat} (hv : b.Valid) (hn : n ≤ b.readable.length)
    (h : b.retrieve n = .ok b') : b'.Valid ∧ b'.readable = b.readable.drop n := by
  rw [hv.readable_length] at hn
  obtain ⟨b₁, hb₁, hv', hread, -⟩ := retrieve_spec hv hn
  cases hb₁.symm.trans h
  exact ⟨hv', hread⟩

/-- retrieveUntil within its asserts drops what lies before the position. -/
theorem retrieveUntil_spec {b : Buffer} (hv : b.Valid) {stop : Nat}
    (hpeek : b.readerIndex ≤ stop) (hend : stop ≤ b.writerIndex) :
    ∃ b', b.retrieveUntil stop = .ok b' ∧ b'.Valid ∧
      b'.readable = b.readable.drop (stop - b.readerIndex) ∧
      b'.writerIndex ≤ b.writerIndex := by
  have hle : stop - b.readerIndex ≤ b.readableBytes := by
    rw [hv.readableBytes_eq]
    omega
  obtain ⟨b', hb', hv', hread, hw'⟩ := retrieve_spec hv hle
  refine ⟨b', ?_, hv', hread, hw'⟩
  unfold retrieveUntil
  rw [require_of_true hpeek, require_of_true hend]
  exact hb'

/-- retrieveAsString returns the bytes it drops. -/
theorem retrieveAsString_spec {b : Buffer} (hv : b.Valid) {len : Nat}
    (h : len ≤ b.readableBytes) :
    ∃ b', b.retrieveAsString len = .ok (b.readable.take len, b') ∧ b'.Valid ∧
      b'.readable = b.readable.drop len := by
  obtain ⟨b', hb', hv', hread, -⟩ := retrieve_spec hv h
  refine ⟨b', ?_, hv', hread⟩
  have hresult : slice b.buffer b.readerIndex (b.readerIndex + len) = b.readable.take len := by
    rw [hv.readableBytes_eq] at h
    simp only [readable, slice, List.take_take]
    congr 1
    omega
  unfold retrieveAsString
  rw [require_of_true h, ok_bind, hb', hresult]
  rfl

/-- unwrite within its assert drops from the end. -/
theorem unwrite_spec {b : Buffer} (hv : b.Valid) {len : Nat} (h : len ≤ b.readableBytes) :
    ∃ b', b.unwrite len = .ok b' ∧ b'.Valid ∧
      b'.readable = b.readable.take (b.readable.length - len) := by
  have hlen := hv.readable_length
  rw [hv.readableBytes_eq] at h hlen
  have hr := hv.reader_le
  have hw := hv.writer_le
  have hs := hv.size_le
  have hsub : sizeSub b.writerIndex len = b.writerIndex - len := by
    unfold maxSize at hs
    exact sizeSub_of_le (by omega) (by omega)
  unfold unwrite
  rw [hv.readableBytes_eq, require_of_true h, ok_bind, hsub]
  refine ⟨_, rfl, ⟨hv.prepend_le, ?_, ?_, hs⟩, ?_⟩
  · simp only
    omega
  · simp only
    omega
  · rw [hlen]
    simp only [readable, slice, List.take_take]
    congr 1
    omega

/-- Writing into the writable area and reporting it adds at the end. -/
theorem write_hasWritten {b : Buffer} (hv : b.Valid) {data mem : Bytes}
    (hmem : overwrite b.buffer b.writerIndex data = .ok mem) :
    let b' : Buffer := { b with buffer := mem, writerIndex := b.writerIndex + data.length }
    hasWritten { b with buffer := mem } data.length = .ok b' ∧ b'.Valid ∧
      b'.readable = b.readable ++ data := by
  obtain ⟨hle, hlen, hnew, hold⟩ := overwrite_ok hmem
  have hr := hv.reader_le
  have hs := hv.size_le
  have hadd : sizeAdd b.writerIndex data.length = b.writerIndex + data.length := by
    unfold maxSize at hs
    exact sizeAdd_of_lt (by omega)
  have hwritable : data.length ≤ writableBytes { b with buffer := mem } := by
    rw [writableBytes_of_le] <;> simp only <;> omega
  refine ⟨?_, ⟨hv.prepend_le, ?_, ?_, ?_⟩, ?_⟩
  · unfold hasWritten
    rw [require_of_true hwritable, ok_bind]
    simp only [hadd]
    rfl
  · simp only
    omega
  · simp only
    omega
  · simp only
    omega
  · simp only [readable]
    rw [slice_split mem hr (Nat.le_add_right _ _), hnew, hold _ _ (Nat.le_refl _)]

theorem resize_ok {b b' : Buffer} (hv : b.Valid) {n : Nat} (h : b.resize n = .ok b')
    (hn : b'.writerIndex ≤ b'.buffer.length) :
    b'.Valid ∧ b'.readable = b.readable ∧ b'.writerIndex = b.writerIndex ∧
      b'.buffer.length = n := by
  unfold resize at h
  split at h
  · rename_i hmax
    cases h
    have hlen : (b.buffer.take n ++ List.replicate (n - b.buffer.length) 0).length = n := by
      simp only [List.length_append, List.length_take, List.length_replicate]
      omega
    have hw := hv.writer_le
    rw [hlen] at hn
    simp only at hn
    refine ⟨⟨hv.prepend_le, hv.reader_le, ?_, ?_⟩, ?_, rfl, hlen⟩
    · simp only [hlen]
      exact hn
    · simp only [hlen]
      exact hmax
    · simp only [readable]
      rw [slice_append_left _ _ (by rw [List.length_take]; omega), slice_take _ hn]
  · cases h

/-- Sliding the content down to the prepend area keeps it. -/
private theorem slide_ok {b : Buffer} (hv : b.Valid) {mem : Bytes}
    (h : overwrite b.buffer kCheapPrepend (slice b.buffer b.readerIndex b.writerIndex) = .ok mem) :
    let b' : Buffer := ⟨mem, kCheapPrepend, sizeAdd kCheapPrepend b.readableBytes⟩
    b'.Valid ∧ b'.readable = b.readable ∧ b'.readableBytes = b.readableBytes ∧
      b'.buffer.length = b.buffer.length ∧ b'.writerIndex = kCheapPrepend + b.readableBytes := by
  obtain ⟨hle, hlen, hnew, -⟩ := overwrite_ok h
  have hrlen : (slice b.buffer b.readerIndex b.writerIndex).length = b.readableBytes :=
    hv.readable_length
  rw [hrlen] at hle hnew
  have hs := hv.size_le
  have hadd : sizeAdd kCheapPrepend b.readableBytes = kCheapPrepend + b.readableBytes := by
    unfold maxSize at hs
    exact sizeAdd_of_lt (by omega)
  intro b'
  have hw' : b'.writerIndex = kCheapPrepend + b.readableBytes := hadd
  have hv' : b'.Valid := by
    refine ⟨Nat.le_refl _, ?_, ?_, ?_⟩
    · rw [hw']
      exact Nat.le_add_right _ _
    · rw [hw']
      exact hle.trans (Nat.le_of_eq hlen.symm)
    · exact (Nat.le_of_eq hlen).trans hs
  refine ⟨hv', ?_, ?_, hlen, hw'⟩
  · unfold readable
    rw [hw']
    exact hnew
  · rw [hv'.readableBytes_eq, hw']
    exact Nat.add_sub_cancel_left _ _

/-- Whatever the argument was, makeSpace keeps the content, unless it shrank
the vector below the writer index. -/
theorem makeSpace_ok {b b' : Buffer} (hv : b.Valid) {len : Int}
    (h : b.makeSpace len = .ok b') (hn : b'.writerIndex ≤ b'.buffer.length) :
    b'.Valid ∧ b'.readable = b.readable ∧ b.writerIndex ≤ b'.buffer.length := by
  unfold makeSpace at h
  split at h
  · obtain ⟨hv', hread, hwriter, -⟩ := resize_ok hv h hn
    exact ⟨hv', hread, hwriter ▸ hn⟩
  · simp only [bind_eq_ok, require_eq_ok] at h
    obtain ⟨_, _, mem, hmem, _, _, h⟩ := h
    cases h
    obtain ⟨hv', hread, -, hlen, -⟩ := slide_ok hv hmem
    exact ⟨hv', hread, hlen ▸ hv.writer_le⟩

/-- The same for the first statement of append. -/
theorem ensureWritable_ok {b b' : Buffer} (hv : b.Valid) {len : Nat}
    (h : b.ensureWritable len = .ok b') (hn : b'.writerIndex ≤ b'.buffer.length) :
    b'.Valid ∧ b'.readable = b.readable ∧ b.writerIndex ≤ b'.buffer.length := by
  unfold ensureWritable at h
  split at h
  · exact makeSpace_ok hv h hn
  · cases h
    exact ⟨hv, rfl, hn⟩

/-- An append that returned has added its data at the end, for data of any
length. -/
theorem append_ok {b b' : Buffer} (hv : b.Valid) {data : Bytes} (h : b.append data = .ok b') :
    b'.Valid ∧ b'.readable = b.readable ++ data := by
  unfold append at h
  simp only [bind_eq_ok, require_eq_ok] at h
  obtain ⟨m, hm, _, _, mem, hmem, h⟩ := h
  have hle := (overwrite_ok hmem).1
  obtain ⟨hmv, hmread, -⟩ := ensureWritable_ok hv hm (by omega)
  obtain ⟨hok, hv', hread⟩ := write_hasWritten hmv hmem
  rw [hok] at h
  cases h
  exact ⟨hv', by rw [hread, hmread]⟩

/-- Behind an unused prefix the content is slid down, whatever the length was that did
not ask for more. -/
theorem makeSpace_slides {b : Buffer} (hv : b.Valid) {len : Int}
    (hroom : ¬ sizeAdd b.writableBytes b.prependableBytes < sizeAdd (ofInt len) kCheapPrepend)
    (hreader : kCheapPrepend < b.readerIndex) :
    ∃ m, b.makeSpace len = .ok m ∧ m.Valid ∧ m.readable = b.readable ∧
      m.buffer.length = b.buffer.length ∧ m.writerIndex = kCheapPrepend + b.readableBytes := by
  have hr := hv.reader_le
  have hw := hv.writer_le
  have hrb := hv.readableBytes_eq
  have hrlen : (slice b.buffer b.readerIndex b.writerIndex).length = b.readableBytes :=
    hv.readable_length
  obtain ⟨mem, hmem⟩ := overwrite_of_le b.buffer kCheapPrepend
    (slice b.buffer b.readerIndex b.writerIndex) (by rw [hrlen]; omega)
  obtain ⟨hmv, hread, hmr, hml, hmw⟩ := slide_ok hv hmem
  unfold makeSpace
  rw [if_neg hroom, require_of_true hreader, ok_bind, hmem, ok_bind]
  exact ⟨_, bind_eq_ok.mpr ⟨(), require_of_true hmr.symm _, rfl⟩, hmv, hread, hml, hmw⟩

/-- A length that fits an int finds or gets its room: growing gives exactly
what is missing, and sliding is chosen only where it gives enough. -/
theorem ensureWritable_spec {b : Buffer} (hv : b.Valid) {len : Nat}
    (hint : len ≤ intMax) (hmax : b.writerIndex + len ≤ maxSize) :
    ∃ m, b.ensureWritable len = .ok m ∧ m.Valid ∧ m.readable = b.readable ∧
      m.writerIndex + len ≤ m.buffer.length ∧ m.writerIndex ≤ b.writerIndex := by
  have hp := hv.prepend_le
  have hr := hv.reader_le
  have hw := hv.writer_le
  have hs := hv.size_le
  have hwb := hv.writableBytes_eq
  have hrb := hv.readableBytes_eq
  unfold maxSize at hs hmax
  unfold kCheapPrepend at hp
  unfold ensureWritable
  by_cases hlt : b.writableBytes < len
  · have hsum : sizeAdd b.writableBytes b.prependableBytes = b.writableBytes + b.readerIndex :=
      sizeAdd_of_lt (by unfold prependableBytes; omega)
    have hneed : sizeAdd len kCheapPrepend = len + 8 :=
      sizeAdd_of_lt (by unfold kCheapPrepend; omega)
    have hsize : sizeAdd b.writerIndex len = b.writerIndex + len := sizeAdd_of_lt (by omega)
    rw [if_pos hlt]
    by_cases hgrow : b.writableBytes + b.readerIndex < len + 8
    · unfold makeSpace
      rw [ofInt_toInt hint, hsum, hneed, hsize, if_pos hgrow]
      obtain ⟨m, hm, hmw, hml⟩ : ∃ m, b.resize (b.writerIndex + len) = .ok m ∧
          m.writerIndex = b.writerIndex ∧ m.buffer.length = b.writerIndex + len := by
        refine ⟨_, if_pos (by unfold maxSize; omega), rfl, ?_⟩
        simp only [List.length_append, List.length_take, List.length_replicate]
        omega
      obtain ⟨hmv, hread, -⟩ := resize_ok hv hm (by omega)
      exact ⟨m, hm, hmv, hread, by omega, by omega⟩
    · obtain ⟨m, hm, hmv, hread, hml, hmw⟩ := @makeSpace_slides b hv (toInt len)
        (by rw [ofInt_toInt hint, hsum, hneed]; exact hgrow) (by unfold kCheapPrepend; omega)
      refine ⟨m, hm, hmv, hread, ?_, ?_⟩
      · rw [hml, hmw]
        unfold kCheapPrepend
        omega
      · rw [hmw]
        unfold kCheapPrepend
        omega
  · rw [if_neg hlt]
    exact ⟨b, rfl, hv, rfl, by omega, Nat.le_refl _⟩

/-- An append whose first statement has left room returns. -/
theorem append_of_room {b m : Buffer} {data : Bytes} (hm : b.ensureWritable data.length = .ok m)
    (hmv : m.Valid) (hroom : m.writerIndex + data.length ≤ m.buffer.length) :
    ∃ b', b.append data = .ok b' ∧ b'.Valid ∧ b'.readable = m.readable ++ data ∧
      b'.writerIndex = m.writerIndex + data.length := by
  obtain ⟨mem, hmem⟩ := overwrite_of_le m.buffer m.writerIndex data hroom
  obtain ⟨hok, hv', hread⟩ := write_hasWritten hmv hmem
  refine ⟨_, ?_, hv', hread, rfl⟩
  have hwritable : data.length ≤ m.writableBytes := by
    rw [hmv.writableBytes_eq]
    omega
  unfold append
  rw [hm, ok_bind, require_of_true hwritable, ok_bind, hmem]
  exact hok

/-- An append of at most INT_MAX bytes within the vector's limit returns. -/
theorem append_spec {b : Buffer} (hv : b.Valid) {data : Bytes}
    (hint : data.length ≤ intMax) (hmax : b.writerIndex + data.length ≤ maxSize) :
    ∃ b', b.append data = .ok b' ∧ b'.Valid ∧ b'.readable = b.readable ++ data ∧
      b'.writerIndex ≤ b.writerIndex + data.length := by
  obtain ⟨m, hm, hmv, hread, hroom, hmw⟩ := ensureWritable_spec hv hint hmax
  obtain ⟨b', hb', hv', hread', hw'⟩ := append_of_room hm hmv hroom
  exact ⟨b', hb', hv', by rw [hread', hread], hw' ▸ Nat.add_le_add_right hmw _⟩

/-- A new buffer takes any text that fits it. -/
theorem exists_readable {text : Bytes} (h : text.length ≤ kInitialSize) :
    ∃ b : Buffer, b.Valid ∧ b.readable = text := by
  have hmax : kCheapPrepend + kInitialSize ≤ maxSize := by decide
  have hint : kInitialSize ≤ intMax := by decide
  obtain ⟨b₀, -, hv₀, hempty, hw⟩ := new_spec hmax
  have hroom : b₀.writerIndex + text.length ≤ maxSize := by
    rw [hw]
    exact (Nat.add_le_add_left h _).trans hmax
  obtain ⟨b, -, hv, hread, -⟩ := append_spec hv₀ (h.trans hint) hroom
  rw [hempty, List.nil_append] at hread
  exact ⟨b, hv, hread⟩

/-- readFd adds exactly the bytes that readv delivered, whether they fit the
writable area or spill into the extra buffer. -/
theorem readFd_data_spec {b : Buffer} (hv : b.Valid) {bytes : Bytes}
    (hcap : bytes.length ≤ b.readvCapacity) (hmax : b.writerIndex + bytes.length ≤ maxSize) :
    ∃ b', b.readFd (.data bytes) = .ok b' ∧ b'.Valid ∧ b'.readable = b.readable ++ bytes := by
  have hwb := hv.writableBytes_eq
  have hw := hv.writer_le
  have hs := hv.size_le
  have hdel : b.delivered (.data bytes) = bytes := List.take_of_length_le hcap
  have htake : (bytes.take b.writableBytes).length ≤ b.writableBytes := List.length_take_le _ _
  obtain ⟨mem, hmem⟩ := overwrite_of_le b.buffer b.writerIndex (bytes.take b.writableBytes)
    (by omega)
  have hlen := (overwrite_ok hmem).2.1
  simp only [readFd, hdel, hmem, ok_bind]
  by_cases hfit : bytes.length ≤ b.writableBytes
  · have hall : bytes.take b.writableBytes = bytes := List.take_of_length_le hfit
    rw [hall] at hmem
    obtain ⟨-, hv', hread⟩ := write_hasWritten hv hmem
    have hadd : sizeAdd b.writerIndex bytes.length = b.writerIndex + bytes.length := by
      unfold maxSize at hmax
      exact sizeAdd_of_lt (by omega)
    rw [if_pos hfit, hadd]
    exact ⟨_, rfl, hv', hread⟩
  · -- the writable area is full: the writer index stands at the end of the vector
    have hfull : (bytes.take b.writableBytes).length = b.writableBytes :=
      List.length_take_of_le (by omega)
    obtain ⟨-, hv', hread⟩ := write_hasWritten hv hmem
    have hend : b.writerIndex + (bytes.take b.writableBytes).length = mem.length := by omega
    rw [hend] at hv' hread
    have hcap' : (bytes.drop b.writableBytes).length ≤ kExtraBufferSize := by
      rw [List.length_drop]
      unfold readvCapacity at hcap
      split at hcap <;> omega
    have hint : (bytes.drop b.writableBytes).length ≤ intMax := by
      unfold kExtraBufferSize at hcap'
      unfold intMax
      omega
    have hmax' : mem.length + (bytes.drop b.writableBytes).length ≤ maxSize := by
      rw [List.length_drop]
      omega
    obtain ⟨r, hr, hrv, hrread, -⟩ := append_spec hv' hint hmax'
    rw [if_neg hfit]
    exact ⟨r, hr, hrv, by rw [hrread, hread, List.append_assoc, List.take_append_drop]⟩

/-- A readFd that returned has added what the kernel delivered, and nothing
when it reported an error. -/
theorem readFd_ok {b b' : Buffer} (hv : b.Valid) {r : ReadResult} (h : b.readFd r = .ok b') :
    b'.Valid ∧ b'.readable = b.readable ++ b.delivered r := by
  cases r with
  | error _ =>
      cases h
      exact ⟨hv, (List.append_nil _).symm⟩
  | data bytes =>
      have hwb := hv.writableBytes_eq
      have hw := hv.writer_le
      have hs := hv.size_le
      simp only [readFd, bind_eq_ok] at h
      generalize b.delivered (.data bytes) = delivered at h ⊢
      obtain ⟨mem, hmem, h⟩ := h
      obtain ⟨hle, hlen, -⟩ := overwrite_ok hmem
      obtain ⟨-, hv', hread⟩ := write_hasWritten hv hmem
      split at h
      · rename_i hfit
        rw [List.take_of_length_le hfit] at hle hv' hread
        have hadd : sizeAdd b.writerIndex delivered.length = b.writerIndex + delivered.length := by
          unfold maxSize at hs
          exact sizeAdd_of_lt (by omega)
        rw [hadd] at h
        cases h
        exact ⟨hv', hread⟩
      · rename_i hspill
        have hfull : (delivered.take b.writableBytes).length = b.writableBytes :=
          List.length_take_of_le (by omega)
        have hend : b.writerIndex + (delivered.take b.writableBytes).length = mem.length := by
          omega
        rw [hend] at hv' hread
        obtain ⟨hrv, hrread⟩ := append_ok hv' h
        exact ⟨hrv, by rw [hrread, hread, List.append_assoc, List.take_append_drop]⟩

/-- The calls a client makes. A position passed to retrieveUntil is given by
its distance from peek(); the bytes of hasWritten are those the client has
put into the writable area before the call. -/
inductive Op where
  | append (data : Bytes)
  | hasWritten (data : Bytes)
  | unwrite (len : Nat)
  | retrieve (len : Nat)
  | retrieveUntil (offset : Nat)
  | retrieveAll
  | retrieveAsString (len : Nat)
  | readFd (result : ReadResult)
  deriving DecidableEq, Repr

def exec (b : Buffer) : Op → Except Fault Buffer
  | .append data => b.append data
  | .hasWritten data => do
    let mem ← overwrite b.buffer b.writerIndex data
    Buffer.hasWritten { b with buffer := mem } data.length
  | .unwrite len => b.unwrite len
  | .retrieve len => b.retrieve len
  | .retrieveUntil offset => b.retrieveUntil (b.readerIndex + offset)
  | .retrieveAll => .ok b.retrieveAll
  | .retrieveAsString len => do
    let (_, b') ← b.retrieveAsString len
    return b'
  | .readFd result => b.readFd result

/-- The preconditions the source asserts, the limits of int and of the
vector, and what the kernel promises about readv. -/
def Op.Pre (b : Buffer) : Op → Prop
  | .append data => data.length ≤ intMax ∧ b.writerIndex + data.length ≤ maxSize
  | .hasWritten data => data.length ≤ b.writableBytes
  | .unwrite len | .retrieve len | .retrieveUntil len | .retrieveAsString len =>
      len ≤ b.readableBytes
  | .retrieveAll | .readFd (.error _) => True
  | .readFd (.data bytes) =>
      bytes.length ≤ b.readvCapacity ∧ b.writerIndex + bytes.length ≤ maxSize

instance Op.decidablePre (b : Buffer) : ∀ op : Op, Decidable (op.Pre b)
  | .append _ | .readFd (.data _) => inferInstanceAs (Decidable (_ ∧ _))
  | .hasWritten _ | .unwrite _ | .retrieve _ | .retrieveUntil _ | .retrieveAsString _ =>
      inferInstanceAs (Decidable (_ ≤ _))
  | .retrieveAll | .readFd (.error _) => isTrue trivial

/-- The same calls on a plain list of bytes. -/
def Op.onQueue (q : Bytes) : Op → Bytes
  | .append data | .hasWritten data => q ++ data
  | .unwrite len => q.take (q.length - len)
  | .retrieve len | .retrieveUntil len | .retrieveAsString len => q.drop len
  | .retrieveAll => []
  | .readFd (.data bytes) => q ++ bytes
  | .readFd (.error _) => q

/-- One call within its precondition returns, keeps the invariant and acts on
the content as on a plain list. -/
theorem exec_refines {b : Buffer} {q : Bytes} {op : Op} (hv : b.Valid) (hq : b.readable = q)
    (hpre : op.Pre b) : ∃ b', b.exec op = .ok b' ∧ b'.Valid ∧ b'.readable = op.onQueue q := by
  subst hq
  cases op with
  | append data =>
      obtain ⟨b', hb', hv', hread, -⟩ := append_spec hv hpre.1 hpre.2
      exact ⟨b', hb', hv', hread⟩
  | hasWritten data =>
      have hw := hv.writer_le
      have hle : data.length ≤ b.writableBytes := hpre
      rw [hv.writableBytes_eq] at hle
      obtain ⟨mem, hmem⟩ := overwrite_of_le b.buffer b.writerIndex data (by omega)
      obtain ⟨hok, hv', hread⟩ := write_hasWritten hv hmem
      exact ⟨_, bind_eq_ok.mpr ⟨mem, hmem, hok⟩, hv', hread⟩
  | unwrite len => exact unwrite_spec hv hpre
  | retrieve len =>
      obtain ⟨b', hb', hv', hread, -⟩ := retrieve_spec hv hpre
      exact ⟨b', hb', hv', hread⟩
  | retrieveUntil offset =>
      have hle : offset ≤ b.readableBytes := hpre
      rw [hv.readableBytes_eq] at hle
      have hr := hv.reader_le
      obtain ⟨b', hb', hv', hread, -⟩ :=
        retrieveUntil_spec hv (Nat.le_add_right _ offset) (by omega)
      exact ⟨b', hb', hv', by rw [hread, Nat.add_sub_cancel_left]; rfl⟩
  | retrieveAll => exact ⟨_, rfl, retrieveAll_valid hv⟩
  | retrieveAsString len =>
      obtain ⟨b', hb', hv', hread⟩ := retrieveAsString_spec hv hpre
      exact ⟨b', bind_eq_ok.mpr ⟨_, hb', rfl⟩, hv', hread⟩
  | readFd result =>
      cases result with
      | error _ => exact ⟨b, rfl, hv, rfl⟩
      | data bytes => exact readFd_data_spec hv hpre.1 hpre.2

/-- Every run of calls within their preconditions, from a constructor whose
size is within the vector's limit, returns without a failed assert, ends in
the index invariant and leaves the content a plain list of bytes would have. -/
theorem buffer_refines_byte_queue {initialSize : Nat}
    (hsize : kCheapPrepend + initialSize ≤ maxSize) :
    ∃ b₀, Buffer.new initialSize = .ok b₀ ∧
      ∀ ops, Respects exec Op.Pre b₀ ops →
        ∃ b, run exec b₀ ops = .ok b ∧
          kCheapPrepend ≤ b.readerIndex ∧ b.readerIndex ≤ b.writerIndex ∧
          b.writerIndex ≤ b.buffer.length ∧ b.readable = ops.foldl Op.onQueue [] := by
  obtain ⟨b₀, hnew, hv₀, hread₀, -⟩ := new_spec hsize
  refine ⟨b₀, hnew, fun ops hpre => ?_⟩
  obtain ⟨b, hb, hv, hread⟩ := run_refines
    (R := fun b q => b.Valid ∧ b.readable = q)
    (fun b q op h hpre => exec_refines h.1 h.2 hpre) ⟨hv₀, hread₀⟩ hpre
  exact ⟨b, hb, hv.prepend_le, hv.reader_le, hv.writer_le, hread⟩

/-- A run that appends, consumes part of the content and then slides and grows. -/
theorem buffer_refines_byte_queue_growth :
    kCheapPrepend + 4 ≤ maxSize ∧ ∃ b₀ b, Buffer.new 4 = .ok b₀ ∧
      run exec b₀ [.append [1, 2, 3], .retrieve 2, .append [4, 5], .append [6, 7, 8]] = .ok b ∧
      b.readable = [3, 4, 5, 6, 7, 8] := by
  refine ⟨by decide, ?_⟩
  obtain ⟨b₀, hnew, hruns⟩ := buffer_refines_byte_queue (show kCheapPrepend + 4 ≤ maxSize by decide)
  cases hnew
  obtain ⟨b, hb, -, -, -, hread⟩ := hruns
    [.append [1, 2, 3], .retrieve 2, .append [4, 5], .append [6, 7, 8]] (by decide)
  exact ⟨_, b, rfl, hb, hread⟩

end Buffer
end TAlib
