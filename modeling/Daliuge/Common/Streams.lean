import Daliuge.Lib.Reader
import Daliuge.Lib.Collect
import Mathlib.Data.List.Basic

/-!
# Streams

The streams of request bodies: objects read as JSON text, and a stream read through a compressor.
Both keep what they have produced beyond the size of a read in a buffer.
-/
namespace Daliuge.Common

open Reader

abbrev Bytes := List UInt8

/-- The buffer of a stream; `buflen` is kept beside it. -/
structure Buffer where
  buf : List Bytes := []
  buflen : Nat := 0
  deriving DecidableEq, Repr

/-- What the loop of a `read` works on. -/
structure Filling extends Buffer where
  response : List Bytes := []
  written : Nat := 0
  deriving DecidableEq, Repr

/-- `data[:n]`. -/
def upto (data : Bytes) (n : Int) : Bytes :=
  if 0 ≤ n then data.take n.toNat else data.take (data.length - n.natAbs)

/-- `data[n:]`. -/
def beyond (data : Bytes) (n : Int) : Bytes :=
  if 0 ≤ n then data.drop n.toNat else data.drop (data.length - n.natAbs)

namespace Buffer

/-- The branch that serves a read from the buffer alone. -/
def serve (b : Buffer) (n : Int) : Bytes × Buffer :=
  let data := b.buf.flatten
  (upto data n, { buf := [beyond data n], buflen := (b.buflen - n).toNat })

/-- The contents of the previous buffer are dumped into the response. -/
def dump (b : Buffer) : Filling :=
  if b.buflen ≠ 0 then { response := [b.buf.flatten], written := b.buflen }
  else { toBuffer := b }

end Buffer

namespace Filling

/-- What is produced goes into the response as far as it is wanted, the rest into the buffer. -/
def put (b : Filling) (n : Nat) (out : Bytes) : Filling :=
  if out = [] then b
  else
    let size := out.length
    let toWrite := min (n - b.written) size
    let b := if toWrite ≠ 0 then
      { b with response := b.response ++ [out.take toWrite], written := b.written + toWrite }
    else b
    if b.written = n then
      { b with buf := b.buf ++ [out.drop toWrite], buflen := b.buflen + (size - toWrite) }
    else b

end Filling

/-! ## Objects as JSON text -/

/-- What a stream still has to write: `enumerate(objects)` of a list, a tuple or a generator,
nothing once that has come to its end, or any other object. `isiter` is true of the first only. -/
inductive Objects (α : Type)
  | items (rest : List (Nat × α))
  | ended
  | object (obj : α)
  deriving DecidableEq, Repr

/-- `JSONStream`. -/
structure JSONStream (α : Type) extends Buffer where
  objects : Objects α
  nreads : Nat := 0
  deriving DecidableEq, Repr

/-- The position of each item beside it, as `enumerate` gives it. -/
def enumerate {α : Type} (first : Nat) : List α → List (Nat × α)
  | [] => []
  | obj :: objs => (first, obj) :: enumerate (first + 1) objs

/-- What is raised for a read without a size. -/
inductive ReadError
  | mustBePositive
  deriving DecidableEq, Repr

namespace JSONStream

variable {α : Type}

def ofItems (objs : List α) : JSONStream α where
  objects := .items (enumerate 0 objs)

def ofObject (obj : α) : JSONStream α where
  objects := .object obj

variable (dumps : α → Bytes)

/-- The text of one item with the character before it. -/
def jsonOut (item : Nat × α) : Bytes := (if item.1 = 0 then 91 else 44) :: dumps item.2

/-- The loop over the items; it ends when enough is written, or with the items. -/
def fill (n : Nat) : List (Nat × α) → Filling → Filling × Objects α
  | [], b => (b.put n [93], .ended)
  | item :: items, b =>
    let b := b.put n (jsonOut dumps item)
    if b.written = n then (b, .items items) else fill n items b

/-- `JSONStream.read`. -/
def read (s : JSONStream α) (n : Int) : Except ReadError (Bytes × JSONStream α) :=
  if n = -1 then .error .mustBePositive
  else if (s.buflen : Int) ≥ n then
    let (data, b) := s.toBuffer.serve n
    .ok (data, { s with toBuffer := b })
  else
    let b := s.toBuffer.dump
    match s.objects with
    | .ended => .ok (b.response.flatten, { s with toBuffer := b.toBuffer })
    | .object obj =>
      if s.nreads ≠ 0 then .ok (b.response.flatten, { s with toBuffer := b.toBuffer })
      else
        let b := b.put n.toNat (dumps obj)
        .ok (b.response.flatten, { s with toBuffer := b.toBuffer, nreads := s.nreads + 1 })
    | .items items =>
      let (b, objects) := fill dumps n.toNat items b
      .ok (b.response.flatten,
        { s with toBuffer := b.toBuffer, objects := objects, nreads := s.nreads + 1 })

end JSONStream

/-! What a read takes from the text, and what it leaves. -/

/-- The length is that of the contents. -/
def Buffer.Sized (b : Buffer) : Prop := b.buflen = b.buf.flatten.length

namespace Filling

variable {b : Filling} {n : Nat} {out : Bytes}

/-- Everything that has been produced. -/
def text (b : Filling) : Bytes := b.response.flatten ++ b.buf.flatten

/-- The response is filled first. -/
structure Fits (n : Nat) (b : Filling) : Prop where
  written : b.written = b.response.flatten.length
  written_le : b.written ≤ n
  sized : b.Sized
  first : b.written < n → b.buf.flatten = []

theorem Fits.response_eq (h : b.Fits n) : b.response.flatten = b.text.take n := by
  have hw := h.written
  rcases Nat.lt_or_eq_of_le h.written_le with hlt | heq
  · rw [text, h.first hlt, List.append_nil, List.take_of_length_le (by omega)]
  · rw [text, List.take_append_of_le_length (by omega), List.take_of_length_le (by omega)]

theorem Fits.buf_eq (h : b.Fits n) : b.buf.flatten = b.text.drop n := by
  have hw := h.written
  rcases Nat.lt_or_eq_of_le h.written_le with hlt | heq
  · rw [text, h.first hlt, List.append_nil, List.drop_eq_nil_of_le (by omega)]
  · rw [text, List.drop_append_of_le_length (by omega), List.drop_eq_nil_of_le (by omega),
      List.nil_append]

/-- The response is the start of what there was, and the rest follows in the buffer. -/
theorem Fits.split (h : b.Fits n) {p t : Bytes} (ht : b.text ++ p = t)
    (he : b.written < n → p = []) :
    b.response.flatten = t.take n ∧ b.buf.flatten ++ p = t.drop n := by
  rw [h.response_eq, h.buf_eq, ← ht]
  have hw := h.written
  rcases Nat.lt_or_eq_of_le h.written_le with hlt | heq
  · rw [he hlt, List.append_nil, List.append_nil]
    exact ⟨rfl, rfl⟩
  · have hl : n ≤ b.text.length := by
      rw [text, List.length_append]
      omega
    rw [List.take_append_of_le_length hl, List.drop_append_of_le_length hl]
    exact ⟨rfl, rfl⟩

theorem fits_dump {c : Buffer} (h : c.Sized) (hn : c.buflen < n) :
    c.dump.Fits n ∧ c.dump.text = c.buf.flatten ∧ c.dump.written < n := by
  unfold Buffer.dump
  split
  · refine ⟨⟨?_, Nat.le_of_lt hn, rfl, fun _ => rfl⟩, ?_, hn⟩
    · rw [List.flatten_singleton]
      exact h
    · rw [text, List.flatten_singleton, List.flatten_nil, List.append_nil]
  · rename_i hz
    have hb : c.buf.flatten = [] := by
      have := of_not_not hz
      rw [h, List.length_eq_zero_iff] at this
      exact this
    exact ⟨⟨rfl, Nat.zero_le n, h, fun _ => hb⟩, rfl, Nat.lt_of_le_of_lt (Nat.zero_le _) hn⟩

theorem flatten_concat (l : List Bytes) (x : Bytes) : (l ++ [x]).flatten = l.flatten ++ x := by
  rw [List.flatten_append, List.flatten_singleton]

/-- A piece is added to what there is. -/
theorem fits_put (h : b.Fits n) (hn : b.written < n) (out : Bytes) :
    (b.put n out).Fits n ∧ (b.put n out).text = b.text ++ out := by
  have hbuf := h.first hn
  have hw := h.written
  have hs : b.buflen = 0 := by rw [h.sized, hbuf]; rfl
  by_cases ho : out = []
  · subst ho
    exact ⟨h, (List.append_nil _).symm⟩
  have hpos := List.length_pos_of_ne_nil ho
  have hm : min (n - b.written) out.length ≠ 0 := by omega
  have htake : (out.take (min (n - b.written) out.length)).length =
      min (n - b.written) out.length := by rw [List.length_take]; omega
  unfold put
  rw [if_neg ho]
  simp only [if_pos hm]
  split
  · rename_i heq
    refine ⟨⟨?_, Nat.le_of_eq heq, ?_, fun hlt => absurd heq (Nat.ne_of_lt hlt)⟩, ?_⟩
    · rw [flatten_concat, List.length_append, htake, hw]
    · rw [Buffer.Sized, flatten_concat, hbuf, List.nil_append, List.length_drop, hs, Nat.zero_add]
    · rw [text, flatten_concat, flatten_concat, hbuf, List.nil_append, List.append_assoc,
        List.take_append_drop, text, hbuf, List.append_nil]
  · rename_i hne
    have hall : out.length ≤ n - b.written := by
      by_contra hc
      exact hne (by omega)
    refine ⟨⟨?_, ?_, h.sized, fun _ => hbuf⟩, ?_⟩
    · rw [flatten_concat, List.length_append, htake, hw]
    · simp only
      omega
    · rw [text, flatten_concat, hbuf, List.append_nil, Nat.min_eq_right hall, List.take_length,
        text, hbuf, List.append_nil]

end Filling

namespace Buffer

variable {b : Buffer} {n : Nat} {t : Bytes}

/-- A read that the buffer alone can serve. -/
theorem serve_spec (h : b.Sized) (hn : n ≤ b.buflen) :
    (b.serve n).1 = (b.buf.flatten ++ t).take n ∧
      (b.serve n).2.buf.flatten ++ t = (b.buf.flatten ++ t).drop n ∧ (b.serve n).2.Sized := by
  have hl : n ≤ b.buf.flatten.length := h ▸ hn
  have hup : upto b.buf.flatten n = b.buf.flatten.take n := by simp [upto]
  have hbe : beyond b.buf.flatten n = b.buf.flatten.drop n := by simp [beyond]
  refine ⟨?_, ?_, ?_⟩
  · rw [List.take_append_of_le_length hl]
    exact hup
  · rw [List.drop_append_of_le_length hl]
    exact congrArg (· ++ t) ((List.flatten_singleton).trans hbe)
  · have hb : b.buflen = b.buf.flatten.length := h
    have hd : (beyond b.buf.flatten n).length = b.buf.flatten.length - n := by
      rw [hbe, List.length_drop]
    simp only [Sized, serve, List.flatten_singleton, hd]
    omega

end Buffer

namespace JSONStream

variable {α : Type} {dumps : α → Bytes} {s : JSONStream α} {n k : Nat} {ns : List Nat}

/-- What is still to come of the objects after `nreads` reads. -/
def pending (dumps : α → Bytes) (nreads : Nat) : Objects α → Bytes
  | .items items => items.flatMap (jsonOut dumps) ++ [93]
  | .ended => []
  | .object obj => if nreads = 0 then dumps obj else []

/-- What is still to be read. -/
def rest (dumps : α → Bytes) (s : JSONStream α) : Bytes :=
  s.buf.flatten ++ pending dumps s.nreads s.objects

variable (dumps k) in
/-- The loop fills the response from the items, and stops short only at their end. -/
theorem fill_spec (items : List (Nat × α)) {b : Filling} (h : b.Fits n) (hn : b.written < n) :
    (fill dumps n items b).1.Fits n ∧
      (fill dumps n items b).1.text ++ pending dumps k (fill dumps n items b).2 =
        b.text ++ pending dumps k (.items items) ∧
      ((fill dumps n items b).1.written < n → (fill dumps n items b).2 = .ended) := by
  induction items generalizing b with
  | nil =>
    obtain ⟨hf, ht⟩ := Filling.fits_put h hn [93]
    refine ⟨hf, ?_, fun _ => rfl⟩
    rw [fill, ht, pending, pending]
    simp
  | cons item items ih =>
    obtain ⟨hf, ht⟩ := Filling.fits_put h hn (jsonOut dumps item)
    unfold fill
    simp only
    split
    · rename_i heq
      refine ⟨hf, ?_, fun hlt => absurd heq (Nat.ne_of_lt hlt)⟩
      rw [ht, pending, pending]
      simp
    · rename_i hne
      obtain ⟨hf', ht', he⟩ := ih hf (Nat.lt_of_le_of_ne hf.written_le hne)
      refine ⟨hf', ?_, he⟩
      rw [ht', ht, pending, pending]
      simp

/-- The first `n` bytes of what is still to be read, and a stream with the others. -/
structure Takes (dumps : α → Bytes) (s : JSONStream α) (n : Nat) (r : Bytes × JSONStream α) :
    Prop where
  data : r.1 = (s.rest dumps).take n
  rest : r.2.rest dumps = (s.rest dumps).drop n
  sized : r.2.Sized

variable (dumps) in
/-- A read of a size takes that much from the text. -/
theorem exists_read (h : s.Sized) (n : Nat) :
    ∃ r, s.read dumps n = .ok r ∧ Takes dumps s n r := by
  have hne : ¬ (n : Int) = -1 := by omega
  unfold read
  rw [if_neg hne]
  split
  · rename_i hle
    obtain ⟨htake, hdrop, hs⟩ := Buffer.serve_spec (t := pending dumps s.nreads s.objects) h
      (by omega : n ≤ s.buflen)
    exact ⟨_, rfl, htake, hdrop, hs⟩
  · rename_i hgt
    obtain ⟨hf, ht, hlt⟩ := Filling.fits_dump h (by omega : s.buflen < n)
    have hrest : s.rest dumps = s.dump.text ++ pending dumps s.nreads s.objects := by rw [ht, rest]
    cases ho : s.objects with
    | ended =>
      have hr := hf.split (p := pending dumps s.nreads .ended) rfl fun _ => rfl
      rw [ho] at hrest
      rw [← hrest] at hr
      exact ⟨_, rfl, hr.1, hr.2, hf.sized⟩
    | object obj =>
      rw [ho] at hrest
      simp only
      split
      · rename_i hk
        have hr := hf.split (p := pending dumps s.nreads (.object obj)) rfl
          fun _ => if_neg hk
        rw [← hrest] at hr
        exact ⟨_, rfl, hr.1, hr.2, hf.sized⟩
      · rename_i hk
        obtain ⟨hf', ht'⟩ := Filling.fits_put hf hlt (dumps obj)
        have hend : pending dumps (s.nreads + 1) (.object obj) = [] := rfl
        have hnow : pending dumps s.nreads (.object obj) = dumps obj := if_pos (of_not_not hk)
        have hr := hf'.split (p := pending dumps (s.nreads + 1) (.object obj)) rfl
          fun _ => hend
        rw [hnow] at hrest
        rw [hend, List.append_nil, ht', ← hrest] at hr
        exact ⟨_, rfl, hr.1, hr.2, hf'.sized⟩
    | items items =>
      rw [ho] at hrest
      obtain ⟨hf', ht', he⟩ := fill_spec dumps (s.nreads + 1) items hf hlt
      have hr := hf'.split (ht'.trans hrest.symm) fun hlt' => by
        rw [he hlt', pending]
      exact ⟨_, rfl, hr.1, hr.2, hf'.sized⟩

variable (dumps) in
/-- Reads of these sizes, one after the other. -/
def reads (s : JSONStream α) : List Nat → Except ReadError (List Bytes)
  | [] => .ok []
  | n :: ns => do
    let (data, s) ← s.read dumps n
    let datas ← reads s ns
    return data :: datas

theorem reads_eq_pieces (h : s.Sized) (ns : List Nat) :
    s.reads dumps ns = .ok (pieces ns (s.rest dumps)) := by
  induction ns generalizing s with
  | nil => rfl
  | cons n ns ih =>
    obtain ⟨⟨data, s'⟩, hr, ht⟩ := exists_read dumps h n
    unfold reads
    rw [hr, Collect.ok_bind]
    simp only
    rw [ih ht.sized, Collect.ok_bind, pieces_cons, ht.rest, ← ht.data]
    rfl

/-- The texts of the objects with commas between them, in brackets. -/
def array (dumps : α → Bytes) (objs : List α) : Bytes :=
  91 :: [44].intercalate (objs.map dumps) ++ [93]

variable (dumps) in
theorem flatMap_enumerate (first : Nat) (objs : List α) (h : first ≠ 0) :
    (enumerate first objs).flatMap (jsonOut dumps) = objs.flatMap fun obj => 44 :: dumps obj := by
  induction objs generalizing first with
  | nil => rfl
  | cons obj objs ih =>
    rw [enumerate, List.flatMap_cons, List.flatMap_cons, ih (first + 1) (by omega), jsonOut,
      if_neg h]

variable (dumps) in
theorem cons_intercalate (obj : α) (objs : List α) :
    dumps obj ++ objs.flatMap (fun obj => 44 :: dumps obj) =
      [44].intercalate ((obj :: objs).map dumps) := by
  induction objs generalizing obj with
  | nil => simp
  | cons obj' objs ih => simpa using ih obj'

theorem rest_ofItems (obj : α) (objs : List α) :
    (ofItems (obj :: objs)).rest dumps = array dumps (obj :: objs) := by
  have hf := flatMap_enumerate dumps 1 objs (by omega)
  have hi := cons_intercalate dumps obj objs
  simp only [rest, ofItems, List.flatten_nil, List.nil_append, pending, enumerate,
    List.flatMap_cons, jsonOut, if_pos, Nat.zero_add, hf, array, ← hi]
  simp

theorem sized_ofItems (objs : List α) : (ofItems objs).Sized := rfl

theorem sized_ofObject (obj : α) : (ofObject obj).Sized := rfl

/-- However a stream is read, the reads give the text piece by piece: that of the object, or that
of the list, but without its opening bracket if there is nothing in it. -/
theorem reads_text (dumps : α → Bytes) :
    (∀ obj objs ns, (ofItems (obj :: objs)).reads dumps ns =
        .ok (pieces ns (array dumps (obj :: objs)))) ∧
      (∀ ns, (ofItems []).reads dumps ns = .ok (pieces ns ((array dumps []).drop 1))) ∧
      ∀ obj ns, (ofObject obj).reads dumps ns = .ok (pieces ns (dumps obj)) := by
  refine ⟨fun obj objs ns => ?_, fun ns => ?_, fun obj ns => ?_⟩
  · rw [reads_eq_pieces (sized_ofItems _), rest_ofItems]
  · exact reads_eq_pieces (sized_ofItems []) ns
  · exact reads_eq_pieces (sized_ofObject obj) ns

end JSONStream

/-! ## Compression -/

/-- What `zlib.compressobj()` gives: an object that takes pieces and gives compressed bytes, and
gives the rest of them in the end. -/
structure Compressor (κ : Type) where
  new : κ
  compress : κ → Bytes → Bytes × κ
  flush : κ → Bytes

/-- `ZlibCompressedStream`; its attribute `exhausted` is not used. -/
structure ZlibCompressedStream (σ κ : Type) extends Buffer where
  content : σ
  compressor : Option κ

namespace ZlibCompressedStream

variable {σ κ : Type} (src : Source σ UInt8) (z : Compressor κ)

def new (content : σ) : ZlibCompressedStream σ κ where
  content := content
  compressor := some z.new

/-- The loop of `readall`: what is left of the content in blocks of this size. -/
def readallLoop (blocksize : Nat) (content : σ) (k : κ) : Bytes × σ :=
  let r := src.read content blocksize
  if _h : r.1 = [] then (z.flush k, r.2)
  else
    let c := z.compress k r.1
    let rest := readallLoop blocksize r.2 c.2
    (c.1 ++ rest.1, rest.2)
  termination_by (src.rest content).length
  decreasing_by exact src.length_rest_lt _h

/-- `readall`; the buffer is not looked at. -/
def readall (s : ZlibCompressedStream σ κ) : Bytes × ZlibCompressedStream σ κ :=
  match s.compressor with
  | none => ([], s)
  | some k =>
    let r := readallLoop src z 8192 s.content k
    (r.1, { s with content := r.2, compressor := none })

/-- The loop of `read`: until enough is written, or the compressor has been flushed. -/
def fill (n : Nat) (content : σ) (k : κ) (b : Filling) : Filling × σ × Option κ :=
  let r := src.read content n
  if _h : r.1 = [] then (b.put n (z.flush k), r.2, none)
  else
    let c := z.compress k r.1
    let b := b.put n c.1
    if b.written = n then (b, r.2, some c.2) else fill n r.2 c.2 b
  termination_by (src.rest content).length
  decreasing_by exact src.length_rest_lt _h

/-- `ZlibCompressedStream.read`. -/
def read (s : ZlibCompressedStream σ κ) (n : Int) : Bytes × ZlibCompressedStream σ κ :=
  if n ≤ 0 then s.readall src z
  else if (s.buflen : Int) ≥ n then
    let (data, b) := s.toBuffer.serve n
    (data, { s with toBuffer := b })
  else
    let b := s.toBuffer.dump
    match s.compressor with
    | none => (b.response.flatten, { s with toBuffer := b.toBuffer })
    | some k =>
      let (b, content, compressor) := fill src z n.toNat s.content k b
      (b.response.flatten,
        { toBuffer := b.toBuffer, content := content, compressor := compressor })

/-- What becomes of the content when it is compressed in these pieces. -/
def packed (k : κ) : List Bytes → Bytes
  | [] => z.flush k
  | c :: cs => (z.compress k c).1 ++ packed (z.compress k c).2 cs

/-- What can still be produced, in whatever pieces the rest of the content is read. -/
def Pending (content : σ) (t : Bytes) : Option κ → Prop
  | none => t = []
  | some k => ∃ cs, cs.flatten = src.rest content ∧ t = packed z k cs

/-- What can still be read. -/
def Left (s : ZlibCompressedStream σ κ) (t : Bytes) : Prop :=
  ∃ p, Pending src z s.content p s.compressor ∧ t = s.buf.flatten ++ p

/-- Nothing can be read any more. -/
def Done (s : ZlibCompressedStream σ κ) : Prop := s.compressor = none ∧ s.buf.flatten = []

variable {src z} {s : ZlibCompressedStream σ κ} {content : σ} {k : κ} {b : Filling} {n : Nat}
  {t : Bytes}

/-- A piece that is compressed first. -/
theorem pending_cons {p : Bytes}
    (hp : Pending src z (src.read content n).2 p (some (z.compress k (src.read content n).1).2)) :
    Pending src z content ((z.compress k (src.read content n).1).1 ++ p) (some k) := by
  obtain ⟨cs, hcs, rfl⟩ := hp
  refine ⟨(src.read content n).1 :: cs, ?_, rfl⟩
  rw [List.flatten_cons, hcs, src.read_append]

theorem fill_flush (h : (src.read content n).1 = []) : fill src z n content k b =
    (b.put n (z.flush k), (src.read content n).2, none) := by
  unfold fill
  exact dif_pos h

theorem fill_compress (h : (src.read content n).1 ≠ []) : fill src z n content k b =
    if (b.put n (z.compress k (src.read content n).1).1).written = n then
      (b.put n (z.compress k (src.read content n).1).1, (src.read content n).2,
        some (z.compress k (src.read content n).1).2)
    else fill src z n (src.read content n).2 (z.compress k (src.read content n).1).2
      (b.put n (z.compress k (src.read content n).1).1) := by
  conv_lhs => unfold fill
  exact dif_neg h

variable (src z content k) in
/-- What the loop writes and keeps, with what can be produced after it, could be produced before. -/
theorem fill_spec (hn : 0 < n) (h : b.Fits n) (hw : b.written < n) :
    (fill src z n content k b).1.Fits n ∧
      ((fill src z n content k b).1.written < n → (fill src z n content k b).2.2 = none) ∧
      ∀ t, Pending src z (fill src z n content k b).2.1 t (fill src z n content k b).2.2 →
        ∃ p, Pending src z content p (some k) ∧
          (fill src z n content k b).1.text ++ t = b.text ++ p := by
  induction hl : (src.rest content).length using Nat.strongRecOn generalizing content k b with
  | _ l ih =>
    by_cases hr : (src.read content n).1 = []
    · rw [fill_flush hr]
      obtain ⟨hf, ht⟩ := Filling.fits_put h hw (z.flush k)
      refine ⟨hf, fun _ => rfl, ?_⟩
      rintro t rfl
      exact ⟨z.flush k, ⟨[], (src.rest_of_read_nil _ _ hn hr).symm, rfl⟩, by simp [ht]⟩
    · rw [fill_compress hr]
      obtain ⟨hf, ht⟩ := Filling.fits_put h hw (z.compress k (src.read content n).1).1
      split
      · rename_i heq
        refine ⟨hf, fun hlt => absurd heq (Nat.ne_of_lt hlt), fun t hp => ?_⟩
        exact ⟨_, pending_cons hp, by rw [ht, List.append_assoc]⟩
      · rename_i hne
        obtain ⟨hf', hend, hall⟩ := ih _ (hl ▸ src.length_rest_lt hr) _ _ hf
          (Nat.lt_of_le_of_ne hf.written_le hne) rfl
        refine ⟨hf', hend, fun t hp => ?_⟩
        obtain ⟨p, hp, he⟩ := hall t hp
        exact ⟨_, pending_cons hp, by rw [he, ht, List.append_assoc]⟩

/-- How far the content and the compressor are from their end. -/
def remaining (src : Source σ UInt8) (content : σ) (compressor : Option κ) : Nat :=
  2 * (src.rest content).length + if compressor.isSome then 1 else 0

theorem remaining_fill (hn : 0 < n) :
    remaining src (fill src z n content k b).2.1 (fill src z n content k b).2.2 <
      remaining src content (some k) := by
  induction hl : (src.rest content).length using Nat.strongRecOn generalizing content k b with
  | _ l ih =>
    by_cases hr : (src.read content n).1 = []
    · rw [fill_flush hr]
      simp [remaining, src.rest_read hn hr]
    · rw [fill_compress hr]
      have hlt := src.length_rest_lt hr
      split
      · simp only [remaining, Option.isSome_some, if_true]
        omega
      · refine Nat.lt_trans (ih _ (hl ▸ hlt) rfl) ?_
        simp only [remaining, Option.isSome_some, if_true]
        omega

theorem readallLoop_spec (hn : 0 < n) :
    Pending src z content (readallLoop src z n content k).1 (some k) := by
  induction hl : (src.rest content).length using Nat.strongRecOn generalizing content k with
  | _ l ih =>
    by_cases hr : (src.read content n).1 = []
    · have he : readallLoop src z n content k = (z.flush k, (src.read content n).2) := by
        unfold readallLoop
        exact dif_pos hr
      rw [he]
      exact ⟨[], (src.rest_of_read_nil _ _ hn hr).symm, rfl⟩
    · have he : (readallLoop src z n content k).1 = (z.compress k (src.read content n).1).1 ++
          (readallLoop src z n (src.read content n).2
            (z.compress k (src.read content n).1).2).1 := by
        conv_lhs => unfold readallLoop
        rw [dif_neg hr]
      rw [he]
      exact pending_cons (ih _ (hl ▸ src.length_rest_lt hr) rfl)

/-- A read of a size: what it gives, with what can be read after it, could be read before. It gives
less only when nothing more can be read. -/
structure Reads (src : Source σ UInt8) (z : Compressor κ) (s : ZlibCompressedStream σ κ) (n : Nat)
    (r : Bytes × ZlibCompressedStream σ κ) : Prop where
  left : ∀ t, Left src z r.2 t → Left src z s (r.1 ++ t)
  sized : r.2.Sized
  length_le : r.1.length ≤ n
  short : r.1.length < n → r.2.Done
  nearer : r.2.Done ∨ remaining src r.2.content r.2.compressor <
      remaining src s.content s.compressor ∨
    remaining src r.2.content r.2.compressor = remaining src s.content s.compressor ∧
      r.2.buflen < s.buflen

/-- The response is full, or everything is in it. -/
theorem length_response {b : Filling} (h : b.Fits n) :
    b.response.flatten.length ≤ n ∧ (b.response.flatten.length < n → b.buf.flatten = []) := by
  rw [← h.written]
  exact ⟨h.written_le, h.first⟩

variable (src z) in
theorem reads_read (h : s.Sized) (hn : 0 < n) : Reads src z s n (s.read src z n) := by
  have hpos : ¬ (n : Int) ≤ 0 := by omega
  unfold read
  rw [if_neg hpos]
  split
  · rename_i hle
    have hle : n ≤ s.buflen := by omega
    have hlen : n ≤ s.buf.flatten.length := (h : s.buflen = _) ▸ hle
    obtain ⟨htake, -, -⟩ := Buffer.serve_spec (t := []) h hle
    have hs := fun t => (Buffer.serve_spec (t := t) h hle)
    rw [List.append_nil] at htake
    have hlt : (s.serve n).1.length = n := by rw [htake, List.length_take]; omega
    refine ⟨?_, (hs []).2.2, Nat.le_of_eq hlt, fun hc => absurd hlt (Nat.ne_of_lt hc), ?_⟩
    · rintro t ⟨p, hp, rfl⟩
      refine ⟨p, hp, ?_⟩
      obtain ⟨hd, hr, -⟩ := hs p
      rw [hd, hr, List.take_append_drop]
    · refine Or.inr (Or.inr ⟨rfl, ?_⟩)
      simp only [Buffer.serve]
      omega
  · rename_i hgt
    obtain ⟨hf, ht, hlt⟩ := Filling.fits_dump h (by omega : s.buflen < n)
    obtain ⟨c, content, compressor⟩ := s
    cases compressor with
    | none =>
      have hbuf : c.dump.buf.flatten = [] := hf.first hlt
      refine ⟨?_, hf.sized, (length_response hf).1, fun _ => ⟨rfl, hbuf⟩, Or.inl ⟨rfl, hbuf⟩⟩
      rintro t ⟨p, hp, rfl⟩
      have htext : c.dump.response.flatten ++ c.dump.buf.flatten = c.buf.flatten := ht
      exact ⟨p, hp, (List.append_assoc _ _ _).symm.trans (congrArg (· ++ p) htext)⟩
    | some k =>
      obtain ⟨hf', hend, hall⟩ := fill_spec src z content k hn hf hlt
      obtain ⟨hle, hshort⟩ := length_response hf'
      refine ⟨?_, hf'.sized, hle, fun hlt' => ⟨hend (hf'.written ▸ hlt'), hshort hlt'⟩,
        Or.inr (Or.inl (remaining_fill hn))⟩
      rintro t ⟨p, hp, rfl⟩
      obtain ⟨p', hp', he⟩ := hall p hp
      rw [Filling.text, ht] at he
      exact ⟨p', hp', (List.append_assoc _ _ _).symm.trans he⟩

/-- Reads of these sizes, one after the other, and what they leave. -/
def reads (src : Source σ UInt8) (z : Compressor κ) (s : ZlibCompressedStream σ κ) :
    List Nat → Bytes × ZlibCompressedStream σ κ
  | [] => ([], s)
  | n :: ns =>
    let r := s.read src z n
    let rs := reads src z r.2 ns
    (r.1 ++ rs.1, rs.2)

variable (src z) in
theorem left_reads (h : s.Sized) {ns : List Nat} (hn : ∀ n ∈ ns, 0 < n) :
    (s.reads src z ns).2.Sized ∧
      ∀ t, Left src z (s.reads src z ns).2 t → Left src z s ((s.reads src z ns).1 ++ t) := by
  induction ns generalizing s with
  | nil => exact ⟨h, fun t ht => ht⟩
  | cons n ns ih =>
    have hr := reads_read src z h (hn n List.mem_cons_self)
    obtain ⟨hs, hl⟩ := ih hr.sized fun m hm => hn m (List.mem_cons_of_mem _ hm)
    refine ⟨hs, fun t ht => ?_⟩
    simp only [reads, List.append_assoc]
    exact hr.left _ (hl t ht)

theorem left_of_done (h : s.Done) : Left src z s [] := by
  refine ⟨[], ?_, by rw [h.2]; rfl⟩
  rw [h.1]
  rfl

variable (src z) in
/-- A stream that is done stays so, and gives nothing. -/
theorem done_read (h : s.Done) (hs : s.Sized) (hn : 0 < n) :
    (s.read src z n).1 = [] ∧ (s.read src z n).2.Done := by
  obtain ⟨c, content, compressor⟩ := s
  obtain ⟨rfl, hb⟩ := h
  have hz : c.buflen = 0 := by
    have hl : c.buflen = c.buf.flatten.length := hs
    rw [hl, show c.buf.flatten = [] from hb]
    rfl
  have hpos : ¬ (n : Int) ≤ 0 := by omega
  have hle : ¬ (c.buflen : Int) ≥ n := by omega
  have hd : c.dump = { toBuffer := c } := by simp [Buffer.dump, hz]
  unfold read
  rw [if_neg hpos, if_neg hle]
  simp only [hd]
  exact ⟨rfl, rfl, hb⟩

variable (src z) in
theorem done_reads (h : s.Done) (hs : s.Sized) {ns : List Nat} (hn : ∀ n ∈ ns, 0 < n) :
    (s.reads src z ns).1 = [] ∧ (s.reads src z ns).2.Done := by
  induction ns generalizing s with
  | nil => exact ⟨rfl, h⟩
  | cons n ns ih =>
    have hpos := hn n List.mem_cons_self
    obtain ⟨hr, hd⟩ := done_read src z h hs hpos
    obtain ⟨hrs, hds⟩ := ih hd (reads_read src z hs hpos).sized fun m hm =>
      hn m (List.mem_cons_of_mem _ hm)
    exact ⟨by rw [reads, hr, hrs]; rfl, hds⟩

theorem reads_range_succ (f : Nat → Nat) (m : Nat) :
    s.reads src z ((List.range (m + 1)).map f) =
      ((s.read src z (f 0)).1 ++
          ((s.read src z (f 0)).2.reads src z ((List.range m).map fun i => f (i + 1))).1,
        ((s.read src z (f 0)).2.reads src z ((List.range m).map fun i => f (i + 1))).2) := by
  rw [List.range_succ_eq_map, List.map_cons, List.map_map]
  rfl

variable (src z) in
/-- Whatever the sizes, the reads come to an end. -/
theorem exists_done (hs : s.Sized) {f : Nat → Nat} (hf : ∀ i, 0 < f i) :
    ∃ m, (s.reads src z ((List.range m).map f)).2.Done := by
  -- The content and the compressor come nearer to their end, or else the buffer gets shorter.
  induction hr : remaining src s.content s.compressor using Nat.strongRecOn
    generalizing s f with
  | _ r ihr =>
    induction hl : s.buflen using Nat.strongRecOn generalizing s f with
    | _ l ihl =>
      have hread := reads_read src z hs (hf 0)
      have hnext : (∃ m, ((s.read src z (f 0)).2.reads src z
          ((List.range m).map fun i => f (i + 1))).2.Done) →
          ∃ m, (s.reads src z ((List.range m).map f)).2.Done := by
        rintro ⟨m, hm⟩
        exact ⟨m + 1, by rw [reads_range_succ]; exact hm⟩
      rcases hread.nearer with hd | hlt | ⟨heq, hlt⟩
      · exact hnext ⟨0, hd⟩
      · exact hnext (ihr _ (hr ▸ hlt) hread.sized (fun i => hf (i + 1)) rfl)
      · exact hnext (ihl _ (hl ▸ hlt) hread.sized (fun i => hf (i + 1)) (heq.trans hr) rfl)

theorem reads_append (ns ms : List Nat) : s.reads src z (ns ++ ms) =
    ((s.reads src z ns).1 ++ ((s.reads src z ns).2.reads src z ms).1,
      ((s.reads src z ns).2.reads src z ms).2) := by
  induction ns generalizing s with
  | nil => rfl
  | cons n ns ih => simp only [List.cons_append, reads, ih, List.append_assoc]

theorem sized_new (z : Compressor κ) (content : σ) : (new z content).Sized := rfl

theorem left_new {content : σ} {t : Bytes} (h : Left src z (new z content) t) :
    ∃ cs, cs.flatten = src.rest content ∧ t = packed z z.new cs := by
  obtain ⟨p, ⟨cs, hcs, rfl⟩, ht⟩ := h
  exact ⟨cs, hcs, ht⟩

/-- Once a new stream is done it has given what its content compresses to, and gives no more. -/
theorem reads_of_done {content : σ} {ns ms : List Nat} (hn : ∀ n ∈ ns ++ ms, 0 < n)
    (hd : ((new z content).reads src z ns).2.Done) :
    ∃ cs, cs.flatten = src.rest content ∧
      ((new z content).reads src z (ns ++ ms)).1 = packed z z.new cs := by
  obtain ⟨hs, hl⟩ := left_reads src z (sized_new z content) fun n h =>
    hn n (List.mem_append_left ms h)
  have hend := (done_reads src z hd hs fun n h => hn n (List.mem_append_right ns h)).1
  obtain ⟨cs, hcs, ht⟩ := left_new (hl [] (left_of_done hd))
  rw [List.append_nil] at ht
  refine ⟨cs, hcs, ?_⟩
  rw [reads_append, hend, List.append_nil, ht]

/-- If what is decompressed is what has been compressed, in whatever pieces, then the reads of a
stream are complete after finitely many of them, whatever their sizes, and decompress to what was
left of the content. -/
theorem reads_decompress {decompress : Bytes → Option Bytes}
    (hz : ∀ cs, decompress (packed z z.new cs) = some cs.flatten) (content : σ) {f : Nat → Nat}
    (hf : ∀ i, 0 < f i) :
    ∃ m, ∀ j, decompress ((new z content).reads src z ((List.range (m + j)).map f)).1 =
      some (src.rest content) := by
  obtain ⟨m, hm⟩ := exists_done src z (sized_new z content) hf
  refine ⟨m, fun j => ?_⟩
  have hpos : ∀ n ∈ (List.range m).map f ++ ((List.range j).map (m + ·)).map f, 0 < n := by
    intro n hn
    rw [← List.map_append] at hn
    obtain ⟨i, -, rfl⟩ := List.mem_map.mp hn
    exact hf i
  obtain ⟨cs, hcs, ht⟩ := reads_of_done hpos hm
  rw [List.range_add, List.map_append, ht, hz, hcs]

/-- Without a compressor the buffer is all there is. -/
theorem read_of_none (h : s.compressor = none) (hs : s.Sized) (hn : 0 < n) :
    (s.read src z n).1 = s.buf.flatten.take n := by
  obtain ⟨c, content, compressor⟩ := s
  obtain rfl : compressor = none := h
  have hpos : ¬ (n : Int) ≤ 0 := by omega
  unfold read
  rw [if_neg hpos]
  split
  · rename_i hle
    have hserve := (Buffer.serve_spec (t := []) hs (Int.ofNat_le.mp hle)).1
    rwa [List.append_nil] at hserve
  · rename_i hgt
    obtain ⟨hf, ht, -⟩ := Filling.fits_dump hs (Int.ofNat_lt.mp (Int.not_le.mp hgt))
    rw [← ht]
    exact hf.response_eq

/-- A read without a size after reads with sizes passes over the buffer: what it gives completes
what has been read only together with those bytes, and they are what the next reads give. -/
theorem readall_passes_buffer {decompress : Bytes → Option Bytes}
    (hz : ∀ cs, decompress (packed z z.new cs) = some cs.flatten) (content : σ) {ns : List Nat}
    (hn : ∀ n ∈ ns, 0 < n) {m : Nat} (hm : 0 < m) :
    let r := (new z content).reads src z ns
    decompress (r.1 ++ r.2.buf.flatten ++ (r.2.read src z (-1)).1) = some (src.rest content) ∧
      ((r.2.read src z (-1)).2.read src z m).1 = r.2.buf.flatten.take m := by
  obtain ⟨hs, hl⟩ := left_reads src z (sized_new z content) hn
  generalize (new z content).reads src z ns = r at hs hl
  obtain ⟨data, s⟩ := r
  have hall : s.read src z (-1) = s.readall src z := by
    unfold read
    rw [if_pos (by omega)]
  simp only [hall]
  constructor
  · have hleft : Left src z s (s.buf.flatten ++ (s.readall src z).1) := by
      refine ⟨(s.readall src z).1, ?_, rfl⟩
      obtain ⟨c, content', compressor⟩ := s
      cases compressor with
      | none => rfl
      | some k => exact readallLoop_spec (by omega)
    obtain ⟨cs, hcs, ht⟩ := left_new (hl _ hleft)
    rw [List.append_assoc, ht, hz, hcs]
  · obtain ⟨c, content', compressor⟩ := s
    cases compressor with
    | none => exact read_of_none rfl hs hm
    | some k => exact read_of_none (s := ⟨c, _, none⟩) rfl hs hm

/-- It writes what zlib writes for no bytes, for the one byte 97 and for the text of a list of 1,
and anything else as it is. -/
def body : Bytes → Bytes
  | [] => [3, 0, 0, 0, 0, 1]
  | [97] => [75, 4, 0, 0, 98, 0, 98]
  | [91, 49, 93] => [139, 54, 140, 5, 0, 1, 211, 0, 234]
  | data => 0 :: data

/-- The header is written with the first bytes that are given. -/
def plain : Compressor (Bool × Bytes) where
  new := (false, [])
  compress k c := (if k.1 then [] else [120, 156], (true, k.2 ++ c))
  flush k := (if k.1 then [] else [120, 156]) ++ body k.2

def unplain : Bytes → Option Bytes
  | [120, 156, 3, 0, 0, 0, 0, 1] => some []
  | [120, 156, 75, 4, 0, 0, 98, 0, 98] => some [97]
  | [120, 156, 139, 54, 140, 5, 0, 1, 211, 0, 234] => some [91, 49, 93]
  | 120 :: 156 :: 0 :: data => some data
  | _ => none

theorem unplain_body (data : Bytes) : unplain ([120, 156] ++ body data) = some data := by
  unfold body
  split <;> rfl

theorem packed_plain (k : Bool × Bytes) (cs : List Bytes) : packed plain k cs =
    (if k.1 then [] else [120, 156]) ++ body (k.2 ++ cs.flatten) := by
  induction cs generalizing k with
  | nil => rw [List.flatten_nil, List.append_nil]; rfl
  | cons c cs ih =>
    obtain ⟨started, data⟩ := k
    rw [packed, ih, List.flatten_cons]
    cases started <;> simp [plain]

theorem unplain_packed (cs : List Bytes) :
    unplain (packed plain plain.new cs) = some cs.flatten := by
  rw [packed_plain]
  exact unplain_body cs.flatten

theorem reads_decompress_one : ∃ m, ∀ j, unplain ((new plain [97]).reads Source.ofList plain
    ((List.range (m + j)).map fun _ => 3)).1 = some [97] :=
  reads_decompress unplain_packed [97] fun _ => Nat.zero_lt_succ 2

theorem readall_passes_buffer_one :
    let r := (new plain [97]).reads Source.ofList plain [1, 3]
    unplain (r.1 ++ r.2.buf.flatten ++ (r.2.read Source.ofList plain (-1)).1) = some [97] ∧
      ((r.2.read Source.ofList plain (-1)).2.read Source.ofList plain (5 : Nat)).1 =
        r.2.buf.flatten.take 5 :=
  readall_passes_buffer unplain_packed [97] (by decide) (Nat.zero_lt_succ 4)

end ZlibCompressedStream

end Daliuge.Common
