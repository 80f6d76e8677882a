import Daliuge.Common.Uncompressed

/-!
# Bodies that are posted

A body goes out in chunks, compressed or not, and is read back at the other end.
-/
namespace Daliuge.Common

open Reader

/-! ## Chunks -/

/-- `hexdigits`. -/
def hexdigits (n : Nat) : Nat :=
  if n = 0 then 0 else hexdigits (n / 16) + 1
  termination_by n

def hexDigit (d : Nat) : UInt8 := UInt8.ofNat (if d < 10 then 48 + d else 87 + d)

/-- `"%x" % n`. -/
def hex (n : Nat) : Bytes :=
  if n < 16 then [hexDigit n] else hex (n / 16) ++ [hexDigit (n % 16)]
  termination_by n

def crlf : Bytes := [13, 10]

/-- `chunk`. -/
def chunk (data : Bytes) : Bytes := hex data.length ++ crlf ++ data ++ crlf

/-- The chunk that ends a body. -/
def lastChunk : Bytes := 48 :: crlf ++ crlf

/-- `chunked`. -/
structure Chunked (σ : Type) where
  content : σ
  finished : Bool := false

namespace Chunked

variable {σ ε : Type} (rd : σ → Int → Except ε (Bytes × σ))

/-- `chunked.read`, over the `read` of the content. -/
def read (s : Chunked σ) (n : Nat) : Except ε (Bytes × Chunked σ) :=
  if s.finished then .ok ([], s)
  else do
    let n : Int := (n : Int) - hexdigits n - 4
    let (data, content) ← rd s.content n
    if data = [] then return (lastChunk, { content := content, finished := true })
    else return (chunk data, { s with content := content })

/-- Reads of these sizes, one after the other: what is sent, and the body after them. -/
def reads (s : Chunked σ) : List Nat → Except ε (Bytes × Chunked σ)
  | [] => .ok ([], s)
  | n :: ns => do
    let (data, s) ← s.read rd n
    let (datas, s) ← reads s ns
    return (data ++ datas, s)

end Chunked

/-- The number that a digit of a chunk's size stands for. -/
def hexValue (x : UInt8) : Option Nat :=
  if 48 ≤ x ∧ x ≤ 57 then some (x.toNat - 48)
  else if 97 ≤ x ∧ x ≤ 102 then some (x.toNat - 87)
  else if 65 ≤ x ∧ x ≤ 70 then some (x.toNat - 55)
  else none

def unhex (digits : Bytes) : Option Nat :=
  if digits = [] then none
  else digits.foldlM (fun size x => (hexValue x).map (16 * size + ·)) 0

/-- The data of a body in the chunked format. -/
def dechunk (w : Bytes) : Option Bytes :=
  match _h : w.dropWhile (· ≠ 13) with
  | 13 :: 10 :: rest =>
    match unhex (w.takeWhile (· ≠ 13)) with
    | none => none
    | some 0 => if rest = crlf then some [] else none
    | some (size + 1) =>
      if (rest.drop (size + 1)).take 2 = crlf then
        (dechunk (rest.drop (size + 3))).map (rest.take (size + 1) ++ ·)
      else none
  | _ => none
  termination_by w.length
  decreasing_by
    have hl := (List.dropWhile_suffix (l := w) (· ≠ 13)).length_le
    rw [_h] at hl
    simp only [List.length_cons, List.length_drop] at hl ⊢
    omega

/-! The size of a chunk. -/

theorem hexdigits_pos {n : Nat} (hn : 0 < n) : hexdigits n = hexdigits (n / 16) + 1 := by
  conv_lhs => unfold hexdigits
  exact if_neg (by omega)

theorem hexdigits_zero : hexdigits 0 = 0 := by
  unfold hexdigits
  exact if_pos rfl

theorem hexdigits_mono {m n : Nat} (h : m ≤ n) : hexdigits m ≤ hexdigits n := by
  induction n using Nat.strongRecOn generalizing m with
  | _ n ih =>
    rcases Nat.eq_zero_or_pos m with rfl | hm
    · rw [hexdigits_zero]
      exact Nat.zero_le _
    · have hn := hexdigits_pos (Nat.lt_of_lt_of_le hm h)
      have hle := ih (n / 16) (by omega) (Nat.div_le_div_right h)
      rw [hexdigits_pos hm]
      omega

theorem hex_small {n : Nat} (h : n < 16) : hex n = [hexDigit n] := by
  unfold hex
  exact if_pos h

theorem hex_large {n : Nat} (h : ¬ n < 16) : hex n = hex (n / 16) ++ [hexDigit (n % 16)] := by
  conv_lhs => unfold hex
  exact if_neg h

theorem length_hex {n : Nat} (hn : 0 < n) : (hex n).length = hexdigits n := by
  induction n using Nat.strongRecOn with
  | _ n ih =>
    by_cases h : n < 16
    · rw [hex_small h, hexdigits_pos hn, Nat.div_eq_of_lt h, hexdigits_zero]
      rfl
    · rw [hex_large h, hexdigits_pos hn, List.length_append, ih (n / 16) (by omega) (by omega)]
      rfl

theorem hexValue_hexDigit {d : Nat} (h : d < 16) : hexValue (hexDigit d) = some d := by
  have hall : ∀ d : Fin 16, hexValue (hexDigit d) = some d.val := by decide
  exact hall ⟨d, h⟩

theorem hexDigit_ne {d : Nat} (h : d < 16) : hexDigit d ≠ 13 := by
  have hall : ∀ d : Fin 16, hexDigit d ≠ 13 := by decide
  exact hall ⟨d, h⟩

theorem ne_of_mem_hex {n : Nat} {x : UInt8} (h : x ∈ hex n) : x ≠ 13 := by
  induction n using Nat.strongRecOn with
  | _ n ih =>
    by_cases hn : n < 16
    · rw [hex_small hn, List.mem_singleton] at h
      exact h ▸ hexDigit_ne hn
    · rw [hex_large hn, List.mem_append, List.mem_singleton] at h
      rcases h with h | rfl
      · exact ih (n / 16) (by omega) h
      · exact hexDigit_ne (Nat.mod_lt n (by omega))

theorem hex_ne_nil (n : Nat) : hex n ≠ [] := by
  by_cases hn : n < 16
  · rw [hex_small hn]
    exact List.cons_ne_nil _ _
  · rw [hex_large hn]
    simp

theorem unhex_hex (n : Nat) : unhex (hex n) = some n := by
  rw [unhex, if_neg (hex_ne_nil n)]
  induction n using Nat.strongRecOn with
  | _ n ih =>
    by_cases hn : n < 16
    · rw [hex_small hn]
      simp [hexValue_hexDigit hn]
    · rw [hex_large hn, List.foldlM_append, ih (n / 16) (by omega)]
      have hm : n % 16 < 16 := Nat.mod_lt n (by omega)
      simp only [Option.bind_eq_bind, Option.bind_some, List.foldlM_cons, List.foldlM_nil,
        hexValue_hexDigit hm, Option.map_some, Option.pure_def, Option.some.injEq]
      omega

/-- The size is what stands before the first line break. -/
theorem parts_hex (n : Nat) (w : Bytes) :
    (hex n ++ 13 :: w).takeWhile (· ≠ 13) = hex n ∧
      (hex n ++ 13 :: w).dropWhile (· ≠ 13) = 13 :: w := by
  have hall : ∀ x ∈ hex n, (decide (x ≠ 13)) = true := fun x hx => by
    simpa using ne_of_mem_hex hx
  constructor
  · rw [List.takeWhile_append_of_pos hall]
    simp
  · rw [List.dropWhile_append_of_pos hall]
    simp

theorem dechunk_lastChunk : dechunk lastChunk = some [] := by
  unfold dechunk
  rfl

/-- A chunk that is not empty is read as its data. -/
theorem dechunk_chunk {data : Bytes} (h : data ≠ []) (w : Bytes) :
    dechunk (chunk data ++ w) = (dechunk w).map (data ++ ·) := by
  have hpos := List.length_pos_of_ne_nil h
  obtain ⟨size, hsize⟩ : ∃ size, data.length = size + 1 := ⟨data.length - 1, by omega⟩
  have htext : chunk data ++ w = hex data.length ++ 13 :: (10 :: (data ++ crlf ++ w)) := by
    simp [chunk, crlf]
  obtain ⟨htake, hdrop⟩ := parts_hex data.length (10 :: (data ++ crlf ++ w))
  have hdata : (data ++ crlf ++ w).take (size + 1) = data := by
    rw [List.append_assoc, ← hsize, List.take_left]
  have hbreak : ((data ++ crlf ++ w).drop (size + 1)).take 2 = crlf := by
    rw [List.append_assoc, ← hsize, List.drop_left]
    rfl
  have hrest : (data ++ crlf ++ w).drop (size + 3) = w := by
    have hl : (data ++ crlf).length = size + 3 := by
      rw [List.length_append, hsize]
      rfl
    rw [← hl, List.drop_left]
  rw [htext]
  conv_lhs => unfold dechunk
  split
  · rename_i rest heq
    rw [hdrop] at heq
    obtain rfl : data ++ crlf ++ w = rest := by simpa using heq
    rw [htake, unhex_hex, hsize]
    simp only
    rw [if_pos hbreak, hrest, hdata]
  · rename_i hno
    exact absurd hdrop (hno _)

/-! Sending a body. -/

/-- The pieces end in an empty one, and only empty ones come after it. -/
def Ends : List Bytes → Prop
  | [] => False
  | data :: datas => if data = [] then datas.flatten = [] else Ends datas

/-- What the content is asked for. -/
def room (n : Nat) : Nat := n - (hexdigits n + 4)

namespace Chunked

variable {σ ε : Type} {rd : σ → Int → Except ε (Bytes × σ)} {s s' : Chunked σ} {n : Nat}
  {w : Bytes}

variable (rd) in
/-- What the content gives when it is asked for what these reads have room for. -/
def contents (c : σ) : List Nat → Except ε (List Bytes × σ)
  | [] => .ok ([], c)
  | n :: ns => do
    let (data, c) ← rd c (room n)
    let (datas, c) ← contents c ns
    return (data :: datas, c)

theorem room_cast (h : hexdigits n + 4 < n) : (n : Int) - hexdigits n - 4 = room n := by
  rw [room]
  omega

theorem read_of_finished (h : s.finished = true) : s.read rd n = .ok ([], s) := by
  unfold read
  exact if_pos h

theorem reads_of_finished (h : s.finished = true) (ns : List Nat) :
    s.reads rd ns = .ok ([], s) := by
  induction ns with
  | nil => rfl
  | cons n ns ih =>
    rw [reads, read_of_finished h, Collect.ok_bind]
    simp only
    rw [ih]
    rfl

theorem read_of_content {c c' : σ} {data : Bytes} (hn : hexdigits n + 4 < n)
    (h : rd c (room n) = .ok (data, c')) : (Chunked.mk c false).read rd n =
      if data = [] then .ok (lastChunk, ⟨c', true⟩) else .ok (chunk data, ⟨c', false⟩) := by
  unfold read
  simp only [Bool.false_eq_true, if_false]
  rw [room_cast hn, h, Collect.ok_bind]
  simp only
  split <;> rfl

/-- A body that comes to its end is sent whole. -/
theorem reads_of_ends {ns : List Nat} (hn : ∀ n ∈ ns, hexdigits n + 4 < n) {c c' : σ}
    {datas : List Bytes} (h : contents rd c ns = .ok (datas, c')) (he : Ends datas) :
    ∃ w s, (Chunked.mk c false).reads rd ns = .ok (w, s) ∧ s.finished = true ∧
      dechunk w = some datas.flatten := by
  induction ns generalizing c datas with
  | nil =>
    obtain ⟨rfl, -⟩ := Prod.mk.inj (Except.ok.inj h)
    exact he.elim
  | cons n ns ih =>
    rw [contents] at h
    obtain ⟨⟨data, c₁⟩, hr, h⟩ := Collect.bind_ok.mp h
    obtain ⟨⟨datas', c₂⟩, ht, h⟩ := Collect.bind_ok.mp h
    obtain ⟨rfl, rfl⟩ := Prod.mk.inj (Except.ok.inj h)
    have hread := read_of_content (hn n List.mem_cons_self) hr
    rw [Ends] at he
    rw [reads, hread]
    by_cases hd : data = []
    · rw [if_pos hd] at he ⊢
      refine ⟨lastChunk, ⟨c₁, true⟩, ?_, rfl, ?_⟩
      · rw [Collect.ok_bind]
        simp only
        rw [reads_of_finished rfl]
        rfl
      · rw [List.flatten_cons, hd, he]
        exact dechunk_lastChunk
    · rw [if_neg hd] at he ⊢
      obtain ⟨w, s, hw, hs, hdec⟩ := ih (fun m hm => hn m (List.mem_cons_of_mem _ hm)) ht he
      refine ⟨chunk data ++ w, s, ?_, hs, ?_⟩
      · rw [Collect.ok_bind]
        simp only
        rw [hw]
        rfl
      · rw [dechunk_chunk hd, hdec]
        rfl

/-- No read gives more than it is asked for. -/
theorem length_read_le (hrd : ∀ c k data c', rd c k = .ok (data, c') → 0 < k →
      (data.length : Int) ≤ k)
    (hn : hexdigits n + 4 < n) (h : s.read rd n = .ok (w, s')) : w.length ≤ n := by
  obtain ⟨c, finished⟩ := s
  cases finished with
  | true =>
    rw [read_of_finished rfl] at h
    obtain ⟨rfl, -⟩ := Prod.mk.inj (Except.ok.inj h)
    exact Nat.zero_le n
  | false =>
    cases hr : rd c (room n) with
    | error e =>
      unfold read at h
      simp only [Bool.false_eq_true, if_false] at h
      rw [room_cast hn, hr] at h
      cases h
    | ok r =>
      obtain ⟨data, c'⟩ := r
      rw [read_of_content hn hr] at h
      have hpos : 0 < room n := by
        rw [room]
        omega
      have hlen := hrd c _ data c' hr (by omega)
      split at h
      · obtain ⟨rfl, -⟩ := Prod.mk.inj (Except.ok.inj h)
        simp only [lastChunk, crlf, List.length_append, List.length_cons, List.length_nil]
        omega
      · rename_i hd
        obtain ⟨rfl, -⟩ := Prod.mk.inj (Except.ok.inj h)
        have hroom : room n = n - (hexdigits n + 4) := rfl
        have hmono : hexdigits data.length ≤ hexdigits n := hexdigits_mono (by omega)
        simp only [chunk, crlf, List.length_append, List.length_cons, List.length_nil,
          length_hex (List.length_pos_of_ne_nil hd)]
        omega

end Chunked

/-- A text that is shorter than the number of pieces ends within them. -/
theorem ends_pieces {ns : List Nat} (hn : ∀ n ∈ ns, 0 < n) {t : Bytes} (hl : t.length < ns.length) :
    Ends (pieces ns t) := by
  induction ns generalizing t with
  | nil => exact absurd hl (Nat.not_lt_zero _)
  | cons n ns ih =>
    have hpos := hn n List.mem_cons_self
    rw [pieces_cons, Ends]
    split
    · rename_i ht
      have hnil : t = [] := by
        rw [List.take_eq_nil_iff] at ht
        exact ht.resolve_left (by omega)
      rw [flatten_pieces, hnil]
      simp
    · rename_i ht
      have htpos : 0 < t.length := by
        refine List.length_pos_of_ne_nil ?_
        rintro rfl
        exact ht List.take_nil
      refine ih (fun m hm => hn m (List.mem_cons_of_mem _ hm)) ?_
      rw [List.length_cons] at hl
      rw [List.length_drop]
      omega

theorem room_pos {n : Nat} (h : hexdigits n + 4 < n) : 0 < room n := by
  rw [room]
  omega

theorem rooms_pos {ns : List Nat} (h : ∀ n ∈ ns, hexdigits n + 4 < n) :
    ∀ k ∈ ns.map room, 0 < k := by
  intro k hk
  obtain ⟨n, hn, rfl⟩ := List.mem_map.mp hk
  exact room_pos (h n hn)

theorem sizes_fit {f : Nat → Nat} (hf : ∀ i, hexdigits (f i) + 4 < f i) (l : List Nat) :
    ∀ n ∈ l.map f, hexdigits n + 4 < n := by
  intro n hn
  obtain ⟨i, -, rfl⟩ := List.mem_map.mp hn
  exact hf i

/-! Objects as text. -/

namespace JSONStream

variable {α : Type} {dumps : α → Bytes} {s : JSONStream α}

variable (dumps) in
theorem contents_read (hs : s.Sized) (ns : List Nat) :
    ∃ s', Chunked.contents (read dumps) s ns =
      .ok (pieces (ns.map room) (s.rest dumps), s') := by
  induction ns generalizing s with
  | nil => exact ⟨s, rfl⟩
  | cons n ns ih =>
    obtain ⟨⟨data, s₁⟩, hr, ht⟩ := exists_read dumps hs (room n)
    obtain ⟨s₂, hrs⟩ := ih ht.sized
    refine ⟨s₂, ?_⟩
    rw [Chunked.contents, hr, Collect.ok_bind]
    simp only
    rw [hrs, Collect.ok_bind, List.map_cons, pieces_cons, ht.rest, ← ht.data]
    rfl

theorem sent_text (hs : s.Sized) {f : Nat → Nat} (hf : ∀ i, hexdigits (f i) + 4 < f i) :
    ∃ m, ∀ j, ∃ w c, (Chunked.mk s false).reads (read dumps) ((List.range (m + j)).map f) =
      .ok (w, c) ∧ c.finished = true ∧ dechunk w = some (s.rest dumps) := by
  refine ⟨(s.rest dumps).length + 1, fun j => ?_⟩
  generalize hns : (List.range ((s.rest dumps).length + 1 + j)).map f = ns
  have hn : ∀ n ∈ ns, hexdigits n + 4 < n := hns ▸ sizes_fit hf _
  have hlen : (s.rest dumps).length < (ns.map room).length := by
    rw [← hns, List.length_map, List.length_map, List.length_range]
    omega
  obtain ⟨s', hc⟩ := contents_read dumps hs ns
  obtain ⟨w, c, hw, hfin, hdec⟩ :=
    Chunked.reads_of_ends hn hc (ends_pieces (rooms_pos hn) hlen)
  refine ⟨w, c, hw, hfin, ?_⟩
  have htotal := length_le_total (rooms_pos hn)
  rw [hdec, flatten_pieces, List.take_of_length_le (by omega)]

variable (dumps) in
/-- A read of a stream whose buffer is in order; it does not fail where a size is given. -/
def readSized (s : {s : JSONStream α // s.Sized}) (n : Nat) :
    Bytes × {s : JSONStream α // s.Sized} :=
  match h : s.1.read dumps n with
  | .ok r => (r.1, ⟨r.2, by
      obtain ⟨r', hr, ht⟩ := exists_read dumps s.2 n
      obtain rfl := Except.ok.inj (h.symm.trans hr)
      exact ht.sized⟩)
  | .error _ => ([], s)

variable (dumps) in
theorem readSized_spec (s : {s : JSONStream α // s.Sized}) (n : Nat) :
    s.1.read dumps n = .ok ((readSized dumps s n).1, (readSized dumps s n).2.1) ∧
      Takes dumps s.1 n ((readSized dumps s n).1, (readSized dumps s n).2.1) := by
  obtain ⟨r, hr, ht⟩ := exists_read dumps s.2 n
  unfold readSized
  split
  · rename_i r' hr'
    obtain rfl := Except.ok.inj (hr'.symm.trans hr)
    exact ⟨hr', ht⟩
  · rename_i e he
    rw [hr] at he
    cases he

/-- The stream as what a compressor reads. -/
def source (dumps : α → Bytes) : Source {s : JSONStream α // s.Sized} UInt8 where
  read := readSized dumps
  rest s := s.1.rest dumps
  read_append s n := by
    obtain ⟨-, ht⟩ := readSized_spec dumps s n
    rw [ht.data, ht.rest, List.take_append_drop]
  length_read_le s n := by
    obtain ⟨-, ht⟩ := readSized_spec dumps s n
    rw [ht.data]
    exact List.length_take_le n _
  rest_of_read_nil s n hn h := by
    obtain ⟨-, ht⟩ := readSized_spec dumps s n
    rw [ht.data, List.take_eq_nil_iff] at h
    exact h.resolve_left (by omega)

end JSONStream

/-! Compressed objects. -/

namespace ZlibCompressedStream

variable {σ κ ε : Type} {src : Source σ UInt8} {z : Compressor κ} {s : ZlibCompressedStream σ κ}

variable (src z) in
/-- `read`, which does not fail. -/
def send (s : ZlibCompressedStream σ κ) (n : Int) :
    Except ReadError (Bytes × ZlibCompressedStream σ κ) :=
  .ok (s.read src z n)

variable (src z) in
/-- The content of the chunks is what the same reads give; it ends once the stream is done. -/
theorem contents_send (hs : s.Sized) {ns : List Nat} (hn : ∀ n ∈ ns, hexdigits n + 4 < n) :
    ∃ datas, Chunked.contents (send src z) s ns = .ok (datas, (s.reads src z (ns.map room)).2) ∧
      datas.flatten = (s.reads src z (ns.map room)).1 ∧
      ∀ pre n post, ns = pre ++ n :: post → (s.reads src z (pre.map room)).2.Done →
        Ends datas := by
  induction ns generalizing s with
  | nil =>
    refine ⟨[], rfl, rfl, fun pre n post h => ?_⟩
    simp at h
  | cons n ns ih =>
    have hpos := room_pos (hn n List.mem_cons_self)
    have htail : ∀ m ∈ ns, hexdigits m + 4 < m := fun m hm => hn m (List.mem_cons_of_mem _ hm)
    have hr := reads_read src z hs hpos
    obtain ⟨datas, hc, hd, hend⟩ := ih hr.sized htail
    refine ⟨(s.read src z (room n)).1 :: datas, ?_, ?_, ?_⟩
    · rw [Chunked.contents, send, Collect.ok_bind]
      simp only
      rw [hc]
      rfl
    · rw [List.flatten_cons, hd]
      rfl
    · intro pre m post he hdone
      rw [Ends]
      split
      · rename_i hnil
        have hdone' := hr.short (by rw [hnil]; exact hpos)
        rw [hd]
        exact (done_reads src z hdone' hr.sized (rooms_pos htail)).1
      · rename_i hne
        cases pre with
        | nil => exact absurd (done_read src z hdone hs hpos).1 hne
        | cons k pre =>
          obtain ⟨rfl, rfl⟩ := List.cons.inj he
          exact hend pre m post rfl hdone

/-- A body that is compressed and sent in chunks is what its content compresses to. -/
theorem sent_packed (src : Source σ UInt8) (z : Compressor κ) (content : σ) {f : Nat → Nat}
    (hf : ∀ i, hexdigits (f i) + 4 < f i) :
    ∃ m, ∀ j, ∃ w c cs, (Chunked.mk (new z content) false).reads (send src z)
        ((List.range (m + j)).map f) = .ok (w, c) ∧ c.finished = true ∧
      cs.flatten = src.rest content ∧ dechunk w = some (packed z z.new cs) := by
  obtain ⟨m, hm⟩ := exists_done src z (sized_new z content) fun i => room_pos (hf i)
  refine ⟨m + 1, fun j => ?_⟩
  have hsplit : (List.range (m + 1 + j)).map f =
      (List.range m).map f ++ f m :: ((List.range j).map (m + 1 + ·)).map f := by
    rw [List.range_add, List.range_succ, List.map_append, List.map_append]
    simp
  have hn := sizes_fit hf (List.range (m + 1 + j))
  rw [hsplit] at hn ⊢
  have hdone : ((new z content).reads src z (((List.range m).map f).map room)).2.Done := by
    rw [List.map_map]
    exact hm
  obtain ⟨datas, hc, hd, hend⟩ := contents_send src z (sized_new z content) hn
  obtain ⟨w, c, hw, hfin, hdec⟩ := Chunked.reads_of_ends hn hc (hend _ _ _ rfl hdone)
  have hpos := rooms_pos hn
  rw [List.map_append] at hd hpos
  obtain ⟨cs, hcs, ht⟩ := reads_of_done hpos hdone
  exact ⟨w, c, cs, hw, hfin, hcs, by rw [hdec, hd, ht]⟩

end ZlibCompressedStream

/-! ## From one end to the other -/

/-- A list that is posted without compression arrives as its text. -/
theorem post_arrives {α : Type} (dumps : α → Bytes) (obj : α) (objs : List α) {f : Nat → Nat}
    (hf : ∀ i, hexdigits (f i) + 4 < f i) :
    ∃ m, ∀ j, ∃ w c, (Chunked.mk (JSONStream.ofItems (obj :: objs)) false).reads
        (JSONStream.read dumps) ((List.range (m + j)).map f) = .ok (w, c) ∧ c.finished = true ∧
      dechunk w = some (JSONStream.array dumps (obj :: objs)) := by
  rw [← JSONStream.rest_ofItems]
  exact JSONStream.sent_text (JSONStream.sized_ofItems _) hf

/-- A list that is posted with compression: the body that arrives is read as the text of the list,
in pieces of whatever sizes, or at once where a file is read and no whole block of the body comes
to nothing. -/
theorem compressed_post_arrives {α κ δ τ : Type} (z : Compressor κ) (y : Decompressor δ)
    (src : Source τ UInt8)
    (hz : ∀ cs : List Bytes,
      y.Yields y.new (ZlibCompressedStream.packed z z.new cs) cs.flatten)
    (dumps : α → Bytes) (obj : α) (objs : List α) {f : Nat → Nat}
    (hf : ∀ i, hexdigits (f i) + 4 < f i) :
    let items : {s : JSONStream α // s.Sized} :=
      ⟨JSONStream.ofItems (obj :: objs), JSONStream.sized_ofItems _⟩
    let text := JSONStream.array dumps (obj :: objs)
    ∃ m, ∀ j, ∃ w c body,
      (Chunked.mk (ZlibCompressedStream.new z items) false).reads
          (ZlibCompressedStream.send (JSONStream.source dumps) z) ((List.range (m + j)).map f) =
        .ok (w, c) ∧ c.finished = true ∧ dechunk w = some body ∧
      ∀ content, src.rest content = body →
        (∀ ns, ∃ s, (ZlibUncompressedStream.new y content).reads src y ns =
          .ok (pieces ns text, s)) ∧
        (src.Full → y.Prompt 8192 body →
          ∃ s, (ZlibUncompressedStream.new y content).read src y (-1) = .ok (text, s)) := by
  intro items text
  obtain ⟨m, hm⟩ := ZlibCompressedStream.sent_packed (JSONStream.source dumps) z items hf
  refine ⟨m, fun j => ?_⟩
  obtain ⟨w, c, cs, hw, hfin, hcs, hdec⟩ := hm j
  refine ⟨w, c, _, hw, hfin, hdec, ?_⟩
  intro content hcontent
  have htext : cs.flatten = text := hcs.trans (JSONStream.rest_ofItems obj objs)
  have hy := hz cs
  rw [← hcontent, htext] at hy
  refine ⟨fun ns => ?_, fun hfull hp => ?_⟩
  · obtain ⟨s, hr, -⟩ := ZlibUncompressedStream.exists_reads
      (s := ZlibUncompressedStream.new y content) rfl (ZlibUncompressedStream.left_new hy) ns
    exact ⟨s, hr⟩
  · rw [← hcontent] at hp
    obtain ⟨p, s, hr, ht, -⟩ :=
      ZlibUncompressedStream.exists_readall hfull hp (ZlibUncompressedStream.left_new hy)
    exact ⟨s, by rw [hr, ht]; rfl⟩

theorem shown_body (data : Bytes) :
    ZlibUncompressedStream.shown ([120, 156] ++ ZlibCompressedStream.body data) = data := by
  unfold ZlibCompressedStream.body
  split <;> rfl

/-- However the content is cut, and however what it is compressed to. -/
theorem yields_packed (cs : List Bytes) :
    ZlibUncompressedStream.inflater.Yields ZlibUncompressedStream.inflater.new
      (ZlibCompressedStream.packed ZlibCompressedStream.plain ZlibCompressedStream.plain.new cs)
      cs.flatten := by
  have h := ZlibUncompressedStream.yields_inflater ([120, 156] ++
    ZlibCompressedStream.body cs.flatten)
  rw [shown_body] at h
  rw [ZlibCompressedStream.packed_plain]
  exact h

theorem block_fits : hexdigits 8192 + 4 < 8192 := by
  have h : hexdigits 8192 ≤ 8000 := by simp [hexdigits]
  omega

theorem post_arrives_one : ∃ m, ∀ j, ∃ w c,
    (Chunked.mk (JSONStream.ofItems [()]) false).reads (JSONStream.read fun _ => [49])
      ((List.range (m + j)).map fun _ => 8192) = .ok (w, c) ∧ c.finished = true ∧
        dechunk w = some [91, 49, 93] :=
  post_arrives (fun _ => [49]) () [] fun _ => block_fits

theorem compressed_post_arrives_one :
    let items : {s : JSONStream Unit // s.Sized} :=
      ⟨JSONStream.ofItems [()], JSONStream.sized_ofItems _⟩
    ∃ m, ∀ j, ∃ w c body,
      (Chunked.mk (ZlibCompressedStream.new ZlibCompressedStream.plain items) false).reads
          (ZlibCompressedStream.send (JSONStream.source fun _ => [49]) ZlibCompressedStream.plain)
          ((List.range (m + j)).map fun _ => 8192) =
        .ok (w, c) ∧ c.finished = true ∧ dechunk w = some body ∧
      ∀ content : Bytes, content = body →
        (∀ ns, ∃ s, (ZlibUncompressedStream.new ZlibUncompressedStream.inflater content).reads
          Source.ofList ZlibUncompressedStream.inflater ns = .ok (pieces ns [91, 49, 93], s)) ∧
        ((Source.ofList : Source Bytes UInt8).Full →
          ZlibUncompressedStream.inflater.Prompt 8192 body →
          ∃ s, (ZlibUncompressedStream.new ZlibUncompressedStream.inflater content).read
            Source.ofList ZlibUncompressedStream.inflater (-1) = .ok ([91, 49, 93], s)) :=
  compressed_post_arrives ZlibCompressedStream.plain ZlibUncompressedStream.inflater Source.ofList
    yields_packed (fun _ => [49]) () [] fun _ => block_fits

end Daliuge.Common
