import Daliuge.Common.Streams

/-!
# Compressed bodies read back

The stream through which a server reads a body that has come compressed.
-/
namespace Daliuge.Common

open Reader

/-- What is raised for bytes that cannot be decompressed. -/
inductive ZlibError
  | error
  deriving DecidableEq, Repr

/-- What `zlib.decompressobj()` gives. There is no limit on what comes out of a piece, so that no
tail of it is left unconsumed; without any piece only so much can come out as is held back. -/
structure Decompressor (δ : Type) where
  new : δ
  decompress : δ → Bytes → Except ZlibError (Bytes × δ)
  flush : δ → Bytes
  held : δ → Nat
  held_lt : ∀ {d d' : δ} {out : Bytes}, decompress d [] = .ok (out, d') → out ≠ [] →
    held d' < held d

namespace Decompressor

variable {δ : Type} (z : Decompressor δ) {d : δ} {data text c : Bytes}

/-- What these pieces and the flush after them come to. -/
def inflated (d : δ) : List Bytes → Except ZlibError Bytes
  | [] => .ok (z.flush d)
  | c :: cs => do
    let (out, d) ← z.decompress d c
    let rest ← inflated d cs
    return out ++ rest

/-- The decompressor after these pieces. -/
def fed (d : δ) : List Bytes → Except ZlibError δ
  | [] => .ok d
  | c :: cs => do
    let (_, d) ← z.decompress d c
    fed d cs

/-- However the data is cut into pieces, it comes to this text. -/
def Yields (d : δ) (data text : Bytes) : Prop :=
  ∀ cs : List Bytes, cs.flatten = data → z.inflated d cs = .ok text

/-- A whole block of this size that comes to nothing is followed by nothing. -/
def Prompt (blocksize : Nat) (data : Bytes) : Prop :=
  ∀ cs c rest d d' text, cs.flatten ++ (c ++ rest) = data → c.length = blocksize →
    z.fed z.new cs = .ok d → z.decompress d c = .ok ([], d') → z.Yields d' rest text →
      text = z.flush d'

variable {z}

theorem Yields.flush (h : z.Yields d [] text) : text = z.flush d :=
  (Except.ok.inj (h [] rfl)).symm

/-- The first piece gives the start of the text. -/
theorem Yields.decompress (h : z.Yields d (c ++ data) text) :
    ∃ out d' t, z.decompress d c = .ok (out, d') ∧ text = out ++ t ∧ z.Yields d' data t := by
  have hone := h [c, data] (by simp)
  rw [inflated] at hone
  obtain ⟨⟨out, d'⟩, hd, -⟩ := Collect.bind_ok.mp hone
  -- What is left of the text does not depend on how the rest of the data is cut.
  have hrest : ∀ cs : List Bytes, cs.flatten = data →
      ∃ t, z.inflated d' cs = .ok t ∧ text = out ++ t := by
    intro cs hcs
    have hall := h (c :: cs) (by rw [List.flatten_cons, hcs])
    rw [inflated, hd, Collect.ok_bind] at hall
    obtain ⟨t, ht, htext⟩ := Collect.bind_ok.mp hall
    exact ⟨t, ht, (Except.ok.inj htext).symm⟩
  obtain ⟨t, -, htext⟩ := hrest [data] (by simp)
  refine ⟨out, d', t, hd, htext, fun cs hcs => ?_⟩
  obtain ⟨t', ht', htext'⟩ := hrest cs hcs
  rw [ht', List.append_cancel_left (htext'.symm.trans htext)]

theorem fed_concat {cs : List Bytes} {d₀ d' : δ} {out : Bytes} (h : z.fed d₀ cs = .ok d)
    (hd : z.decompress d c = .ok (out, d')) : z.fed d₀ (cs ++ [c]) = .ok d' := by
  induction cs generalizing d₀ with
  | nil =>
    obtain rfl := Except.ok.inj h
    rw [List.nil_append, fed, hd]
    rfl
  | cons c₀ cs ih =>
    rw [fed] at h
    obtain ⟨r, hc, h⟩ := Collect.bind_ok.mp h
    rw [List.cons_append, fed, hc, Collect.ok_bind]
    exact ih h

end Decompressor

/-- `ZlibUncompressedStream`. -/
structure ZlibUncompressedStream (σ δ : Type) extends Buffer where
  content : σ
  decompressor : Option δ

namespace Filling

variable {b : Filling} {n : Nat} {out : Bytes}

theorem written_put (b : Filling) (n : Nat) (out : Bytes) :
    (b.put n out).written = b.written + min (n - b.written) out.length := by
  unfold put
  split
  · rename_i ho
    simp [ho]
  · simp only
    split <;> split <;> simp_all

theorem written_put_lt (h : b.written < n) (hne : ¬ (b.put n out).written = n) :
    (b.put n out).written < n := by
  have hw := written_put b n out
  omega

end Filling

theorem Buffer.written_dump (b : Buffer) : b.dump.written = b.buflen := by
  unfold Buffer.dump
  split
  · rfl
  · rename_i h
    exact (of_not_not h).symm

namespace ZlibUncompressedStream

variable {σ δ : Type} (src : Source σ UInt8) (z : Decompressor δ)

def new (content : σ) : ZlibUncompressedStream σ δ where
  content := content
  decompressor := some z.new

/-- The loop of `readall`: until a block comes to nothing. -/
def readallLoop (blocksize : Nat) (content : σ) (d : δ) : Except ZlibError (Bytes × σ) :=
  match _h : z.decompress d (src.read content blocksize).1 with
  | .error e => .error e
  | .ok (decompressed, d') =>
    if _hd : decompressed = [] then .ok (z.flush d', (src.read content blocksize).2)
    else do
      let (data, content) ← readallLoop blocksize (src.read content blocksize).2 d'
      return (decompressed ++ data, content)
  termination_by ((src.rest content).length, z.held d)
  decreasing_by
    by_cases hr : (src.read content blocksize).1 = []
    · rw [src.rest_read_nil hr]
      rw [hr] at _h
      exact Prod.Lex.right _ (z.held_lt _h _hd)
    · exact Prod.Lex.left _ _ (src.length_rest_lt hr)

/-- `readall`; the buffer is not looked at. -/
def readall (s : ZlibUncompressedStream σ δ) :
    Except ZlibError (Bytes × ZlibUncompressedStream σ δ) :=
  match s.decompressor with
  | none => .ok ([], s)
  | some d => do
    let (data, content) ← readallLoop src z 8192 s.content d
    return (data, { s with content := content, decompressor := none })

/-- The loop of `read`: until enough is written, or both the content and the decompressor are
exhausted. -/
def fill (n : Nat) (content : σ) (d : δ) (b : Filling) (hb : b.written < n) :
    Except ZlibError (Filling × σ × Option δ) :=
  match z.decompress d (src.read content n).1 with
  | .error e => .error e
  | .ok (decompressed, d') =>
    if _h : (src.read content n).1 = [] ∧ decompressed = [] then
      .ok (b.put n (z.flush d'), (src.read content n).2, none)
    else if hw : (b.put n decompressed).written = n then
      .ok (b.put n decompressed, (src.read content n).2, some d')
    else fill n (src.read content n).2 d' (b.put n decompressed) (Filling.written_put_lt hb hw)
  termination_by n - b.written + (src.rest content).length
  decreasing_by
    have hp := Filling.written_put b n decompressed
    by_cases hr : (src.read content n).1 = []
    · have hl := congrArg List.length (src.rest_read_nil hr)
      have hd := List.length_pos_of_ne_nil fun hd => _h ⟨hr, hd⟩
      omega
    · have hl := src.length_rest_lt hr
      omega

theorem written_dump_lt {s : ZlibUncompressedStream σ δ} {n : Int} (h : ¬ (s.buflen : Int) ≥ n) :
    s.toBuffer.dump.written < n.toNat := by
  rw [Buffer.written_dump]
  omega

/-- `ZlibUncompressedStream.read`. -/
def read (s : ZlibUncompressedStream σ δ) (n : Int) :
    Except ZlibError (Bytes × ZlibUncompressedStream σ δ) :=
  if n = -1 then s.readall src z
  else if h : (s.buflen : Int) ≥ n then
    let served := s.toBuffer.serve n
    .ok (served.1, { s with toBuffer := served.2 })
  else
    let b := s.toBuffer.dump
    match s.decompressor with
    | none => .ok (b.response.flatten, { s with toBuffer := b.toBuffer })
    | some d => do
      let (b, content, decompressor) ← fill src z n.toNat s.content d b (written_dump_lt h)
      return (b.response.flatten,
        { toBuffer := b.toBuffer, content := content, decompressor := decompressor })

/-- What can still come of the content, and the decompressor has been fed what is before it. -/
def Coming (data : Bytes) (content : σ) (text : Bytes) : Option δ → Prop
  | none => text = []
  | some d => z.Yields d (src.rest content) text ∧
      ∃ cs : List Bytes, cs.flatten ++ src.rest content = data ∧ z.fed z.new cs = .ok d

/-- What can still be read. -/
def Left (data : Bytes) (s : ZlibUncompressedStream σ δ) (text : Bytes) : Prop :=
  ∃ p, Coming src z data s.content p s.decompressor ∧ text = s.buf.flatten ++ p

variable {src z} {s : ZlibUncompressedStream σ δ} {content : σ} {d d' : δ} {b : Filling}
  {n : Nat} {data text : Bytes}

theorem fill_exhausted (hb : b.written < n) (hr : (src.read content n).1 = [])
    (hd : z.decompress d (src.read content n).1 = .ok ([], d')) :
    fill src z n content d b hb = .ok (b.put n (z.flush d'), (src.read content n).2, none) := by
  unfold fill
  rw [hd]
  exact dif_pos ⟨hr, rfl⟩

theorem fill_decompress {out : Bytes} (hb : b.written < n)
    (hd : z.decompress d (src.read content n).1 = .ok (out, d'))
    (hne : ¬ ((src.read content n).1 = [] ∧ out = [])) :
    fill src z n content d b hb =
      if hw : (b.put n out).written = n then
        .ok (b.put n out, (src.read content n).2, some d')
      else fill src z n (src.read content n).2 d' (b.put n out) (Filling.written_put_lt hb hw) := by
  conv_lhs => unfold fill
  rw [hd]
  exact dif_neg hne

theorem readallLoop_last {blocksize : Nat}
    (hd : z.decompress d (src.read content blocksize).1 = .ok ([], d')) :
    readallLoop src z blocksize content d = .ok (z.flush d', (src.read content blocksize).2) := by
  unfold readallLoop
  split
  · rename_i he
    rw [hd] at he
    cases he
  · rename_i hok
    rw [hd] at hok
    obtain ⟨rfl, rfl⟩ := Prod.mk.inj (Except.ok.inj hok)
    rfl

theorem readallLoop_more {blocksize : Nat} {out : Bytes}
    (hd : z.decompress d (src.read content blocksize).1 = .ok (out, d')) (hne : out ≠ []) :
    readallLoop src z blocksize content d = (do
      let (data, content) ← readallLoop src z blocksize (src.read content blocksize).2 d'
      return (out ++ data, content)) := by
  conv_lhs => unfold readallLoop
  split
  · rename_i he
    rw [hd] at he
    cases he
  · rename_i hok
    rw [hd] at hok
    obtain ⟨rfl, rfl⟩ := Prod.mk.inj (Except.ok.inj hok)
    exact dif_neg hne

/-- A piece of the content that is decompressed gives the start of what is coming. -/
theorem Coming.decompress (h : Coming src z data content text (some d)) (n : Nat) :
    ∃ out d' t, z.decompress d (src.read content n).1 = .ok (out, d') ∧ text = out ++ t ∧
      Coming src z data (src.read content n).2 t (some d') := by
  obtain ⟨hy, cs, hcs, hfed⟩ := h
  rw [← src.read_append content n] at hy hcs
  obtain ⟨out, d', t, hd, ht, hy'⟩ := hy.decompress
  refine ⟨out, d', t, hd, ht, hy', cs ++ [(src.read content n).1], ?_,
    Decompressor.fed_concat hfed hd⟩
  rw [Filling.flatten_concat, List.append_assoc]
  exact hcs

/-- At the end of the content only the flush is coming. -/
theorem Coming.flush (h : Coming src z data content text (some d)) (hr : src.rest content = []) :
    text = z.flush d := by
  obtain ⟨hy, -⟩ := h
  rw [hr] at hy
  exact hy.flush

/-- The loop takes what is coming into the response and the buffer, and stops short only at the
end. -/
theorem fill_spec (h : Coming src z data content text (some d)) (hf : b.Fits n)
    (hb : b.written < n) :
    ∃ b' content' o p, fill src z n content d b hb = .ok (b', content', o) ∧ b'.Fits n ∧
      Coming src z data content' p o ∧ b'.text ++ p = b.text ++ text ∧
      (b'.written < n → p = []) := by
  induction hm : n - b.written + (src.rest content).length using Nat.strongRecOn
    generalizing content d b text with
  | _ m ih =>
    obtain ⟨out, d', t, hd, rfl, hc⟩ := h.decompress n
    by_cases hend : (src.read content n).1 = [] ∧ out = []
    · obtain ⟨hr, rfl⟩ := hend
      have hflush := hc.flush (src.rest_read (by omega) hr)
      obtain ⟨hf', ht'⟩ := Filling.fits_put hf hb (z.flush d')
      refine ⟨_, _, none, [], fill_exhausted hb hr hd, hf', rfl, ?_, fun _ => rfl⟩
      rw [ht', hflush, List.append_nil, List.nil_append]
    · obtain ⟨hf', ht'⟩ := Filling.fits_put hf hb out
      rw [fill_decompress hb hd hend]
      by_cases hw : (b.put n out).written = n
      · rw [dif_pos hw]
        refine ⟨_, _, some d', t, rfl, hf', hc, ?_, fun hlt => absurd hw (Nat.ne_of_lt hlt)⟩
        rw [ht', List.append_assoc]
      · rw [dif_neg hw]
        have hlt : n - (b.put n out).written + (src.rest (src.read content n).2).length < m := by
          have hp := Filling.written_put b n out
          by_cases hr : (src.read content n).1 = []
          · have hl := congrArg List.length (src.rest_read_nil hr)
            have ho := List.length_pos_of_ne_nil fun ho => hend ⟨hr, ho⟩
            omega
          · have hl := src.length_rest_lt hr
            omega
        obtain ⟨b', content', o, p, he, hf'', hp, ht'', hs⟩ :=
          ih _ hlt hc hf' (Filling.written_put_lt hb hw) rfl
        refine ⟨b', content', o, p, he, hf'', hp, ?_, hs⟩
        rw [ht'', ht', List.append_assoc]

/-- A read of a size takes that much of what can be read. -/
theorem exists_read (hs : s.Sized) (h : Left src z data s text) (n : Nat) :
    ∃ s', s.read src z n = .ok (text.take n, s') ∧ s'.Sized ∧
      Left src z data s' (text.drop n) := by
  have hne : ¬ (n : Int) = -1 := by omega
  obtain ⟨c, content, decompressor⟩ := s
  obtain ⟨p, hp, rfl⟩ := h
  unfold read
  rw [if_neg hne]
  split
  · rename_i hle
    obtain ⟨htake, hdrop, hs'⟩ := Buffer.serve_spec (t := p) hs (Int.ofNat_le.mp hle)
    exact ⟨⟨(c.serve n).2, content, decompressor⟩, by rw [← htake], hs', p, hp, hdrop.symm⟩
  · rename_i hgt
    obtain ⟨hf, ht, hlt⟩ := Filling.fits_dump hs (Int.ofNat_lt.mp (Int.not_le.mp hgt))
    cases decompressor with
    | none =>
      obtain rfl : p = [] := hp
      obtain ⟨htake, hdrop⟩ := hf.split (congrArg (· ++ []) ht) fun _ => rfl
      exact ⟨⟨c.dump.toBuffer, content, none⟩, by rw [← htake], hf.sized, [], rfl, hdrop.symm⟩
    | some d =>
      obtain ⟨b', content', o, p', he, hf', hp', ht', hend⟩ := fill_spec hp hf hlt
      obtain ⟨htake, hdrop⟩ := hf'.split (ht'.trans (congrArg (· ++ p) ht)) hend
      refine ⟨⟨b'.toBuffer, content', o⟩, ?_, hf'.sized, p', hp', hdrop.symm⟩
      simp only [Int.toNat_natCast, he, Collect.ok_bind]
      rw [← htake]
      rfl

variable (src z) in
/-- Reads of these sizes, one after the other, and the stream after them. -/
def reads (s : ZlibUncompressedStream σ δ) :
    List Nat → Except ZlibError (List Bytes × ZlibUncompressedStream σ δ)
  | [] => .ok ([], s)
  | n :: ns => do
    let (data, s) ← s.read src z n
    let (datas, s) ← reads s ns
    return (data :: datas, s)

theorem exists_reads (hs : s.Sized) (h : Left src z data s text) (ns : List Nat) :
    ∃ s', s.reads src z ns = .ok (pieces ns text, s') ∧ s'.Sized ∧
      Left src z data s' (text.drop (total ns)) := by
  induction ns generalizing s text with
  | nil => exact ⟨s, rfl, hs, h⟩
  | cons n ns ih =>
    obtain ⟨s₁, hr, hs₁, h₁⟩ := exists_read hs h n
    obtain ⟨s₂, hrs, hs₂, h₂⟩ := ih hs₁ h₁
    refine ⟨s₂, ?_, hs₂, ?_⟩
    · rw [reads, hr, Collect.ok_bind]
      simp only
      rw [hrs, Collect.ok_bind]
      rfl
    · rwa [total, ← List.drop_drop]

theorem left_new (hy : z.Yields z.new (src.rest content) text) :
    Left src z (src.rest content) (new z content) text :=
  ⟨text, ⟨hy, [], rfl, rfl⟩, rfl⟩

/-- The reads of a compressed body, of whatever sizes, give the text piece by piece, however the
content comes. -/
theorem reads_inflated (hy : z.Yields z.new (src.rest content) text) (ns : List Nat) :
    ∃ s, (new z content).reads src z ns = .ok (pieces ns text, s) := by
  obtain ⟨s, hr, -⟩ := exists_reads (s := new z content) rfl (left_new hy) ns
  exact ⟨s, hr⟩

theorem readallLoop_spec {blocksize : Nat} (hfull : src.Full) (hp : z.Prompt blocksize data)
    (h : Coming src z data content text (some d)) :
    ∃ content', readallLoop src z blocksize content d = .ok (text, content') := by
  -- A block is taken from the content, or else the decompressor holds less back.
  induction hl : (src.rest content).length using Nat.strongRecOn generalizing content d text with
  | _ l ihl =>
    induction hk : z.held d using Nat.strongRecOn generalizing content d text with
    | _ k ihk =>
      obtain ⟨out, d', t, hd, rfl, hc⟩ := h.decompress blocksize
      by_cases ho : out = []
      · subst ho
        have ht : t = z.flush d' := by
          rcases Nat.lt_or_eq_of_le (src.length_read_le content blocksize) with hlt | heq
          · exact hc.flush (hfull content blocksize hlt)
          · obtain ⟨-, cs, hcs, hfed⟩ := h
            rw [← src.read_append content blocksize] at hcs
            exact hp cs _ _ d d' t hcs heq hfed hd hc.1
        exact ⟨_, by rw [readallLoop_last hd, List.nil_append, ht]⟩
      · have hrest : ∃ content',
            readallLoop src z blocksize (src.read content blocksize).2 d' = .ok (t, content') := by
          by_cases hr : (src.read content blocksize).1 = []
          · have hlen := (congrArg List.length (src.rest_read_nil hr)).trans hl
            rw [hr] at hd
            exact ihk _ (hk ▸ z.held_lt hd ho) hc hlen rfl
          · exact ihl _ (hl ▸ src.length_rest_lt hr) hc rfl
        obtain ⟨content', he⟩ := hrest
        refine ⟨content', ?_⟩
        rw [readallLoop_more hd ho, he]
        rfl

/-- A read without a size gives what is coming, and leaves the buffer as it is. -/
theorem exists_readall (hfull : src.Full) (hp : z.Prompt 8192 data)
    (h : Left src z data s text) :
    ∃ p s', s.read src z (-1) = .ok (p, s') ∧ text = s.buf.flatten ++ p ∧
      s'.toBuffer = s.toBuffer := by
  obtain ⟨c, content, decompressor⟩ := s
  obtain ⟨p, hc, ht⟩ := h
  cases decompressor with
  | none =>
    obtain rfl : p = [] := hc
    exact ⟨[], _, rfl, ht, rfl⟩
  | some d =>
    obtain ⟨content', he⟩ := readallLoop_spec hfull hp hc
    refine ⟨p, ⟨c, content', none⟩, ?_, ht, rfl⟩
    unfold read readall
    rw [if_pos rfl]
    simp only [he, Collect.ok_bind]
    rfl

/-- A read without a size gives what is left of the text, but for what reads with sizes have left
in the buffer. -/
theorem readall_inflated (hfull : src.Full) (hp : z.Prompt 8192 (src.rest content))
    (hy : z.Yields z.new (src.rest content) text) (ns : List Nat) :
    ∃ s u s', (new z content).reads src z ns = .ok (pieces ns text, s) ∧
      s.read src z (-1) = .ok (u, s') ∧ text.drop (total ns) = s.buf.flatten ++ u ∧
        s'.toBuffer = s.toBuffer := by
  obtain ⟨s, hr, -, hleft⟩ := exists_reads (s := new z content) rfl (left_new hy) ns
  obtain ⟨u, s', hu⟩ := exists_readall hfull hp hleft
  exact ⟨s, u, s', hr, hu⟩

/-- What has come out of such bytes as a compressor writes for 97 and for the text of a list of 1,
once these of them have been read. -/
def shown : Bytes → Bytes
  | 120 :: 156 :: 75 :: 4 :: _ => [97]
  | 120 :: 156 :: 139 :: 54 :: 140 :: 5 :: _ => [91, 49, 93]
  | 120 :: 156 :: 139 :: 54 :: 140 :: _ => [91, 49]
  | 120 :: 156 :: 139 :: 54 :: _ => [91]
  | 120 :: 156 :: 0 :: data => data
  | _ => []

theorem shown_mono (d c : Bytes) : shown d <+: shown (d ++ c) := by
  conv_lhs => unfold shown
  split
  · exact List.prefix_rfl
  · exact List.prefix_rfl
  · simp only [List.cons_append, shown]
    split <;> grind
  · simp only [List.cons_append, shown]
    split <;> grind
  · exact List.prefix_append _ _
  · exact List.nil_prefix

/-- It keeps the bytes it has read. -/
def inflater : Decompressor Bytes where
  new := []
  decompress d c := .ok ((shown (d ++ c)).drop (shown d).length, d ++ c)
  flush _ := []
  held _ := 0
  held_lt := by
    rintro d d' out h hne
    obtain ⟨rfl, -⟩ := Prod.mk.inj (Except.ok.inj h)
    rw [List.append_nil, List.drop_length] at hne
    exact absurd rfl hne

theorem inflated_inflater (d : Bytes) (cs : List Bytes) :
    inflater.inflated d cs = .ok ((shown (d ++ cs.flatten)).drop (shown d).length) := by
  induction cs generalizing d with
  | nil =>
    rw [List.flatten_nil, List.append_nil, List.drop_length]
    rfl
  | cons c cs ih =>
    obtain ⟨t, ht⟩ := shown_mono (d ++ c) cs.flatten
    have hle := (shown_mono d c).length_le
    have hd : inflater.decompress d c = .ok ((shown (d ++ c)).drop (shown d).length, d ++ c) := rfl
    rw [Decompressor.inflated, hd, Collect.ok_bind]
    simp only
    rw [ih, Collect.ok_bind, List.flatten_cons, ← List.append_assoc, ← ht, List.drop_left,
      List.drop_append_of_le_length hle]
    rfl

theorem yields_inflater (data : Bytes) : inflater.Yields inflater.new data (shown data) := by
  rintro cs rfl
  rw [inflated_inflater]
  rfl

/-- A body that is shorter than a block. -/
theorem prompt_of_length_lt {blocksize : Nat} (h : data.length < blocksize) :
    z.Prompt blocksize data := by
  intro cs c rest d d' text he hc
  have hl := congrArg List.length he
  rw [List.length_append, List.length_append] at hl
  omega

theorem reads_inflated_one : ∃ s, (new inflater [120, 156, 75, 4, 0, 0, 98, 0, 98]).reads
    Source.ofList inflater [1, 2] = .ok (pieces [1, 2] [97], s) :=
  reads_inflated (yields_inflater _) [1, 2]

theorem readall_inflated_one :
    ∃ s u s', (new inflater [120, 156, 139, 54, 140, 5, 0, 1, 211, 0, 234]).reads
        Source.ofList inflater [1] = .ok (pieces [1] [91, 49, 93], s) ∧
      s.read Source.ofList inflater (-1) = .ok (u, s') ∧
        [91, 49, 93].drop (total [1]) = s.buf.flatten ++ u ∧ s'.toBuffer = s.toBuffer :=
  readall_inflated Source.full_ofList (prompt_of_length_lt (by decide)) (yields_inflater _) [1]

end ZlibUncompressedStream

end Daliuge.Common
