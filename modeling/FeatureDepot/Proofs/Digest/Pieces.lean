import Mathlib.Data.List.Basic
import FeatureDepot.Digest.Checksum

/-! Digests of messages that come in pieces. A running digest stands where a digest of the whole
message stands behind the same bytes, so how a message is cut is not to be seen in its checksums;
nor is who asked for them while it was coming. -/
namespace FeatureDepot
open Digest

namespace Digest

variable {σ : Type} {d : BlockDigest σ} {state : σ} {bytes message : Bytes} {blocks : List Bytes}
  {r : Running σ}

namespace BlockDigest

lemma drop_ne_nil_iff : bytes.drop (blockSize - 1) ≠ [] ↔ blockSize ≤ bytes.length := by
  rw [Ne, List.drop_eq_nil_iff]
  simp only [blockSize]
  omega

lemma compressAll_of_lt (h : bytes.length < blockSize) :
    d.compressAll state bytes = (state, bytes) := by
  have hdrop : bytes.drop (blockSize - 1) = [] := List.drop_eq_nil_of_le (Nat.le_sub_one_of_lt h)
  rw [compressAll, if_pos hdrop]

lemma compressAll_of_le (h : blockSize ≤ bytes.length) : d.compressAll state bytes =
    d.compressAll (d.compress state (bytes.take blockSize)) (bytes.drop blockSize) := by
  conv_lhs => rw [compressAll, if_neg (drop_ne_nil_iff.mpr h)]

/-- What was compressed before need not be looked at again. -/
theorem compressAll_append (state : σ) (bytes more : Bytes) : d.compressAll state (bytes ++ more) =
    d.compressAll (d.compressAll state bytes).1 ((d.compressAll state bytes).2 ++ more) := by
  fun_induction d.compressAll state bytes with
  | case1 state bytes h => rfl
  | case2 state bytes h ih =>
    have hle := drop_ne_nil_iff.mp h
    have hwhole : blockSize ≤ (bytes ++ more).length := by
      rw [List.length_append]
      omega
    rw [compressAll_of_le hwhole, List.take_append_of_le_length hle,
      List.drop_append_of_le_length hle, ih]

/-- Over whole blocks, the state is carried from one to the next. -/
theorem compressAll_flatten (state : σ) (h : ∀ block ∈ blocks, block.length = blockSize) :
    d.compressAll state blocks.flatten = (blocks.foldl d.compress state, []) := by
  induction blocks generalizing state with
  | nil => exact compressAll_of_lt (by decide)
  | cons block blocks ih =>
    have hblock : block.length = blockSize := h block List.mem_cons_self
    have hle : blockSize ≤ (block ++ blocks.flatten).length := by
      rw [List.length_append]
      omega
    rw [List.flatten_cons, compressAll_of_le hle, ← hblock, List.take_left, List.drop_left,
      ih _ fun b hb => h b (List.mem_cons_of_mem _ hb), List.foldl_cons]

lemma exists_blocks (count : Nat) (bytes : Bytes) (h : bytes.length = count * blockSize) :
    ∃ blocks : List Bytes, (∀ block ∈ blocks, block.length = blockSize) ∧
    blocks.flatten = bytes := by
  induction count generalizing bytes with
  | zero =>
    rw [Nat.zero_mul, List.length_eq_zero_iff] at h
    exact ⟨[], fun _ hb => absurd hb List.not_mem_nil, h.symm⟩
  | succ count ih =>
    rw [Nat.succ_mul] at h
    obtain ⟨blocks, hblocks, hflatten⟩ :=
      ih (bytes.drop blockSize) (by rw [List.length_drop, h, Nat.add_sub_cancel])
    refine ⟨bytes.take blockSize :: blocks, ?_, ?_⟩
    · intro block hb
      rcases List.mem_cons.mp hb with rfl | hb
      · rw [List.length_take, h]
        omega
      · exact hblocks block hb
    · rw [List.flatten_cons, hflatten, List.take_append_drop]

/-- The padding fills the last block. -/
theorem dvd_length_padded (h : ∀ n, (d.lengthBytes n).length = 8) (message : Bytes) :
    blockSize ∣ (message ++ d.padding message.length).length := by
  unfold padding
  simp only [List.cons_append, List.length_cons, List.length_append,
    List.length_replicate, h, blockSize]
  omega

lemma digest_eq_foldl (h : ∀ n, (d.lengthBytes n).length = 8) (message : Bytes) :
    ∃ blocks : List Bytes, (∀ block ∈ blocks, block.length = blockSize) ∧
      blocks.flatten = message ++ d.padding message.length ∧
      d.digest message = d.output (blocks.foldl d.compress d.start) := by
  obtain ⟨count, hcount⟩ := dvd_length_padded h message
  obtain ⟨blocks, hblocks, hflatten⟩ := exists_blocks count _ (hcount.trans (Nat.mul_comm _ _))
  refine ⟨blocks, hblocks, hflatten, ?_⟩
  rw [digest, ← hflatten, compressAll_flatten d.start hblocks]

end BlockDigest

lemma length_littleEndian (count n : Nat) : (littleEndian count n).length = count := by
  induction count generalizing n with
  | zero => rfl
  | succ count ih => rw [littleEndian, List.length_cons, ih]

lemma MD5.length_lengthBytes (n : Nat) : (MD5.algorithm.lengthBytes n).length = 8 :=
  length_littleEndian 8 n

lemma SHA1.length_lengthBytes (n : Nat) : (SHA1.algorithm.lengthBytes n).length = 8 :=
  List.length_reverse.trans (length_littleEndian 8 n)

/-- The MD5 digest of a message comes from the blocks of the padded message, one after the other. -/
theorem MD5.digest_eq_foldl (message : Bytes) :
    ∃ blocks : List Bytes, (∀ block ∈ blocks, block.length = blockSize) ∧
      blocks.flatten = message ++ MD5.algorithm.padding message.length ∧
      MD5.algorithm.digest message =
        MD5.algorithm.output (blocks.foldl MD5.compress MD5.algorithm.start) :=
  MD5.algorithm.digest_eq_foldl MD5.length_lengthBytes message

/-- So does the SHA-1 digest; it differs in how it writes the length, and in its steps. -/
theorem SHA1.digest_eq_foldl (message : Bytes) :
    ∃ blocks : List Bytes, (∀ block ∈ blocks, block.length = blockSize) ∧
      blocks.flatten = message ++ SHA1.algorithm.padding message.length ∧
      SHA1.algorithm.digest message =
        SHA1.algorithm.output (blocks.foldl SHA1.compress SHA1.algorithm.start) :=
  SHA1.algorithm.digest_eq_foldl SHA1.length_lengthBytes message

namespace Running

/-- A running digest has read a message: it counted its bytes, and stands behind its whole
blocks. -/
structure Reads (d : BlockDigest σ) (r : Running σ) (message : Bytes) : Prop where
  length : r.length = message.length
  compressed : d.compressAll d.start message = (r.state, r.pending)

lemma reads_start (d : BlockDigest σ) : (start d).Reads d [] :=
  ⟨rfl, BlockDigest.compressAll_of_lt (by decide)⟩

lemma Reads.add (h : r.Reads d message) (piece : Bytes) :
    (r.add d piece).Reads d (message ++ piece) := by
  refine ⟨?_, ?_⟩
  · rw [Running.add, h.length, List.length_append]
  · rw [BlockDigest.compressAll_append, h.compressed, Running.add]

/-- The padding is put behind what is pending, on the way to the result only. -/
theorem Reads.result_eq (h : r.Reads d message) : r.result d = d.digest message := by
  rw [result, BlockDigest.digest, BlockDigest.compressAll_append d.start, h.compressed, h.length]

end Running

lemma mem_hex {c : Char} (h : c ∈ (hex bytes).toList) : c ∈ "0123456789abcdef".toList := by
  have hdigit : ∀ n < 16, Nat.digitChar n ∈ "0123456789abcdef".toList := by decide
  rw [hex, String.toList_ofList, List.mem_flatMap] at h
  obtain ⟨b, -, hb⟩ := h
  have hb' : b.toNat < 256 := b.toNat_lt
  rcases List.mem_pair.mp hb with rfl | rfl
  · exact hdigit _ (by omega)
  · exact hdigit _ (by omega)

end Digest

namespace Tally

variable {ε : Type} {t : Tally} {content : Bytes} {items : List (Except ε Bytes)}

/-- What came with a stream: its pieces, one behind the other. -/
def arrived (items : List (Except ε Bytes)) : Bytes := (items.filterMap (·.toOption)).flatten

@[simp] theorem arrived_nil : arrived ([] : List (Except ε Bytes)) = [] := rfl

@[simp] theorem arrived_ok (piece : Bytes) (items : List (Except ε Bytes)) :
    arrived (.ok piece :: items) = piece ++ arrived items := rfl

@[simp] theorem arrived_error (e : ε) (items : List (Except ε Bytes)) :
    arrived (.error e :: items) = arrived items := rfl

lemma arrived_append (items more : List (Except ε Bytes)) :
    arrived (items ++ more) = arrived items ++ arrived more := by
  simp [arrived]

/-- Running checksums have read a content. -/
structure Reads (t : Tally) (content : Bytes) : Prop where
  md5 : t.md5.Reads MD5.algorithm content
  sha1 : t.sha1.Reads SHA1.algorithm content

lemma reads_start : start.Reads [] := ⟨Running.reads_start _, Running.reads_start _⟩

lemma Reads.add (h : t.Reads content) (piece : Bytes) : (t.add piece).Reads (content ++ piece) :=
  ⟨h.md5.add piece, h.sha1.add piece⟩

lemma Reads.result_eq (h : t.Reads content) : t.result = checksums content := by
  rw [result, h.md5.result_eq, h.sha1.result_eq]
  rfl

lemma Reads.behind (h : t.Reads content) (items : List (Except ε Bytes)) :
    (t.behind items).Reads (content ++ arrived items) := by
  induction items generalizing t content with
  | nil => simpa [Tally.behind] using h
  | cons item items ih =>
    cases item with
    | ok piece => simpa [Tally.behind] using ih (h.add piece)
    | error e => simpa [Tally.behind] using ih h

lemma result_behind (items : List (Except ε Bytes)) :
    (start.behind items).result = checksums (arrived items) := by
  have h := reads_start.behind items
  rw [List.nil_append] at h
  exact h.result_eq

lemma map_fst_watch (t : Tally) (items : List (Except ε Bytes)) :
    (t.watch items).map (·.1) = items := by
  induction items generalizing t with
  | nil => rfl
  | cons item items ih => cases item <;> simp [watch, ih]

/-- What a reader of a stream does next: it takes an item, or asks for the checksums. -/
inductive Turn
  | take
  | collect
  deriving DecidableEq, Repr

/-- What a reader is given: an item, if there is one left, or checksums. -/
inductive Answer (ε : Type)
  | item (item : Option (Except ε Bytes))
  | sums (sums : List (ChecksumKind × String))

/-- What a reader is given for its turns, while items pass through the running checksums. -/
def answers (t : Tally) : List (Except ε Bytes × Tally) → List Turn → List (Answer ε)
  | _, [] => []
  | stream, .collect :: turns => .sums t.result :: t.answers stream turns
  | [], .take :: turns => .item none :: t.answers [] turns
  | (item, after) :: stream, .take :: turns => .item (some item) :: after.answers stream turns

/-- What a turn should give once some items of a stream were taken: the next item, or the checksums
of what arrived. -/
def Turn.answer (items : List (Except ε Bytes)) (taken : Nat) : Turn → Answer ε
  | take => .item items[taken]?
  | collect => .sums (checksums (arrived (items.take taken)))

/-- Behind the end of a stream, nothing changes. -/
theorem Turn.answer_of_length_le {taken : Nat} (h : items.length ≤ taken) (turn : Turn) :
    turn.answer items taken = turn.answer items items.length := by
  cases turn with
  | take => rw [answer, answer, List.getElem?_eq_none h, List.getElem?_eq_none (Nat.le_refl _)]
  | collect => rw [answer, answer, List.take_of_length_le h, List.take_length]

/-- After some items, a reader is given what the whole stream has for its turns. -/
theorem getElem?_answers {earlier : List (Except ε Bytes)} (h : t.Reads (arrived earlier))
    (items : List (Except ε Bytes)) (turns : List Turn) (k : Nat) :
    (t.answers (t.watch items) turns)[k]? =
      turns[k]?.map
        (Turn.answer (earlier ++ items) (earlier.length + (turns.take k).count .take)) := by
  induction turns generalizing t earlier items k with
  | nil => rfl
  | cons turn turns ih =>
    cases turn with
    | collect =>
      cases k with
      | zero => simp [answers, Turn.answer, h.result_eq]
      | succ k => simpa [answers] using ih h items k
    | take =>
      cases items with
      | nil =>
        cases k with
        | zero => simp [watch, answers, Turn.answer]
        | succ k =>
          have hend (n : Nat) :
              (Turn.answer (earlier ++ []) (earlier.length + n) : Turn → Answer ε) =
                Turn.answer (earlier ++ []) (earlier ++ []).length :=
            funext fun turn => Turn.answer_of_length_le (by simp) turn
          have hrest := ih h [] k
          rw [hend] at hrest ⊢
          simpa [watch, answers] using hrest
      | cons item items =>
        have hafter : ∃ after : Tally, after.Reads (arrived (earlier ++ [item])) ∧
            t.watch (item :: items) = (item, after) :: after.watch items := by
          cases item with
          | ok piece => exact ⟨t.add piece, by simpa [arrived_append] using h.add piece, rfl⟩
          | error e => exact ⟨t, by simpa [arrived_append] using h, rfl⟩
        obtain ⟨after, hreads, hwatch⟩ := hafter
        cases k with
        | zero => simp [hwatch, answers, Turn.answer]
        | succ k =>
          have hrest := ih hreads items k
          rw [hwatch, answers, List.getElem?_cons_succ, hrest]
          simp [Nat.add_comm, Nat.add_left_comm]

/-- How a content is cut into pieces makes no difference to its checksums. The items of a stream
pass unchanged and in order; behind any number of them, the checksums are those of what arrived, in
small hexadecimal digits and MD5 first; and a reader that takes items and asks for checksums in any
order is given just these, whatever it asked before. -/
theorem watch_pieces (items : List (Except ε Bytes)) :
    (start.watch items).map (·.1) = items ∧
    (∀ n, (start.behind (items.take n)).result =
        [(.md5, hex (MD5.algorithm.digest (arrived (items.take n)))),
          (.sha1, hex (SHA1.algorithm.digest (arrived (items.take n))))] ∧
      ∀ sum ∈ (start.behind (items.take n)).result, ∀ c ∈ sum.2.toList,
        c ∈ "0123456789abcdef".toList) ∧
    ∀ turns k, (start.answers (start.watch items) turns)[k]? =
      turns[k]?.map (Turn.answer items ((turns.take k).count .take)) := by
  refine ⟨map_fst_watch start items, fun n => ⟨result_behind _, ?_⟩, fun turns k => ?_⟩
  · intro sum hsum c hc
    rw [result_behind] at hsum
    obtain ⟨kind, -, rfl⟩ := List.mem_map.mp hsum
    cases kind <;> exact mem_hex hc
  · have hstart : start.Reads (arrived ([] : List (Except ε Bytes))) := reads_start
    simpa using getElem?_answers hstart items turns k

/-- The letters a, b and c, with an empty piece and a failure among them. -/
theorem watch_pieces_abc :
    (start.behind [.ok [0x61], .error "timed out", .ok [], .ok [0x62, 0x63]]).result =
    [(.md5, "900150983cd24fb0d6963f7d28e17f72"),
      (.sha1, "a9993e364706816aba3e25717850c26c9cd0d89d")] := by
  obtain ⟨-, hsums, -⟩ := watch_pieces [.ok [0x61], .error "timed out", .ok [], .ok [0x62, 0x63]]
  exact (hsums 4).1.trans (by decide +kernel)

end Tally
end FeatureDepot
