import Mathlib.Data.List.Dedup
import Mathlib.Data.List.Induction
import Polish.Proofs.Decoding
import Polish.Proofs.Joining
import Polish.Proofs.Prefixes
import Polish.Workbench

/-!
# The cache cannot be seen

The cache finds code by the source alone, while a file name goes into the places of failures. Code
holds no places, so the code kept for a source is the code that it has under every name; and a
source that fails is not kept, so its failure is made anew, with the name of the request at hand.

What the cache holds is a matter of the requests made before. Put the sources that compile in the
order of their last requests, the latest first: a cache of size `n` holds the first `n` of them.
One request moves its source to the front of that order, and does the same to the cache, whether the
source is found there or not. So a source is found when it compiles and fewer than `n` others have
come in front of it.

* `Request`, `Workbench.after`: a workbench after requests, one after the other.
* `Request.answer_of_ok`, `Request.file_of_error`: what a file name has to do with an answer.
* `recent`: the sources that compile, in the order of their last requests.
* `mem_take_recent_iff`: which of them are in front.
* `Cache.Keeps`, `Workbench.exists_keeps`: what a cache holds after requests.
* `Workbench.cache_cannot_be_seen`: the answers are those of a workbench without a cache, and only
  the log tells when the cache was used.
-/

namespace Polish

/-! ### Requests -/

/-- A request to compile a source that is known under a file name. -/
structure Request where
  file : Bytes
  source : Bytes
deriving DecidableEq, Repr

namespace Request

/-- The answer to a request, when nothing is kept. -/
def answer (r : Request) : Except Failure (List Instr) :=
  Program.ofSource r.file r.source >>= Program.compile

/-- Does the source compile? -/
def compiles (r : Request) : Bool := r.answer.isOk

theorem compiles_iff {r : Request} : r.compiles = true ↔ ∃ code, r.answer = .ok code := by
  rw [compiles]
  cases r.answer with
  | ok code => simp [Except.isOk, Except.toBool]
  | error f => simp [Except.isOk, Except.toBool]

/-- A source that compiles has the same code under every file name. -/
theorem answer_of_ok {r q : Request} {code : List Instr} (h : r.answer = .ok code)
    (hsource : q.source = r.source) : q.answer = .ok code := by
  obtain ⟨p, hp, hcode⟩ := Result.bind_eq_ok.mp h
  obtain ⟨p', hp', herase⟩ := (Spells.of_source hp).exists_ofSource q.file
  rw [← hsource] at hp'
  -- the two programs differ in places only, and these have no part in the code
  obtain ⟨-, -, hwritten, -⟩ := Program.exists_tokens hp'
  obtain ⟨code', hcode'⟩ := Program.exists_compile hwritten
  have hsame : Except.ok code' = (Except.ok code : Except Failure (List Instr)) := by
    rw [← Action.compileAll_erase p'.actions hcode', herase]
    exact Action.compileAll_erase p.actions hcode
  exact Result.bind_eq_ok.mpr ⟨p', hp', hcode'.trans hsame⟩

theorem compiles_congr {r q : Request} (h : q.source = r.source) : q.compiles = r.compiles := by
  rw [Bool.eq_iff_iff, compiles_iff, compiles_iff]
  constructor
  · rintro ⟨code, hcode⟩
    exact ⟨code, answer_of_ok hcode h.symm⟩
  · rintro ⟨code, hcode⟩
    exact ⟨code, answer_of_ok hcode h⟩

end Request

/-- The tokens of a source stand in its file. -/
theorem file_of_mem_tokenize {file source : Bytes} {ts : List Token}
    (h : tokenize file source = .ok ts) : ∀ t ∈ ts, t.span.file = file := by
  obtain ⟨-, rfl⟩ := tokenize_eq_ok h
  intro t ht
  obtain ⟨w, -, rfl⟩ := List.mem_map.mp ht
  rfl

/-- A source that cannot be read fails at a place in its file. -/
theorem Program.file_of_ofSource_error {file source : Bytes} {f : Failure}
    (h : ofSource file source = .error f) : ∃ span, f.span = some span ∧ span.file = file := by
  cases hts : tokenize file source with
  | error g =>
    rw [ofSource, hts] at h
    cases h
    -- the scanner refuses a word where it starts
    rw [tokenize_eq_readTokens, readTokens] at hts
    split at hts
    · cases hts
      exact ⟨_, rfl, rfl⟩
    · cases hts
  | ok ts =>
    rw [ofSource, hts] at h
    obtain ⟨used, rest, rfl, hblames, hrest⟩ := blames_of_ofTokens h
    obtain ⟨i, t, hblame⟩ := hblames.exists_isToBlame hrest
    have hmem := List.mem_of_getElem? hblame.token
    have hzero : t.span.isZero = false :=
      (isProper_of_mem_tokenize hts t hmem).isZero_tokensSpan []
    refine ⟨t.span, ?_, file_of_mem_tokenize hts t hmem⟩
    rw [hblame.span, Span.toOption, hzero]
    rfl

/-- The failure of a request is at a place in the file of that request. -/
theorem Request.file_of_error {r : Request} {f : Failure} (h : r.answer = .error f) :
    ∃ span, f.span = some span ∧ span.file = r.file := by
  cases hp : Program.ofSource r.file r.source with
  | error g =>
    rw [answer, hp] at h
    cases h
    exact Program.file_of_ofSource_error hp
  | ok p =>
    obtain ⟨-, -, hwritten, -⟩ := Program.exists_tokens hp
    obtain ⟨code, hcode⟩ := Program.exists_compile hwritten
    rw [answer, hp, Result.ok_bind, hcode] at h
    cases h

/-! ### The order of last requests -/

/-- A source comes to the front, from wherever it was. -/
def toFront (order : List Bytes) (source : Bytes) : List Bytes :=
  source :: order.filter (· != source)

theorem nodup_toFront {order : List Bytes} (h : order.Nodup) (source : Bytes) :
    (toFront order source).Nodup := by
  refine List.nodup_cons.mpr ⟨?_, h.filter _⟩
  simp

theorem mem_toFront {order : List Bytes} {source other : Bytes} :
    other ∈ toFront order source ↔ other = source ∨ other ∈ order := by
  rw [toFront, List.mem_cons, List.mem_filter, bne_iff_ne]
  by_cases h : other = source <;> simp [h]

/-- Each source comes to the front, one after the other. -/
def allToFront (order sources : List Bytes) : List Bytes := sources.foldl toFront order

theorem allToFront_concat (order sources : List Bytes) (source : Bytes) :
    allToFront order (sources ++ [source]) = toFront (allToFront order sources) source :=
  List.foldl_concat ..

/-- What was not requested again stands behind what was, in its old order. -/
theorem allToFront_eq_append (order sources : List Bytes) :
    allToFront order sources
      = allToFront [] sources ++ order.filter fun other => !sources.contains other := by
  induction sources using List.reverseRecOn with
  | nil => simp [allToFront]
  | append_singleton sources source ih =>
    rw [allToFront_concat, allToFront_concat, ih, toFront, toFront, List.filter_append,
      List.filter_filter, List.cons_append]
    congr 3
    funext other
    rw [Bool.eq_iff_iff]
    simp [and_comm]

theorem nodup_allToFront (sources : List Bytes) : (allToFront [] sources).Nodup := by
  induction sources using List.reverseRecOn with
  | nil => exact List.nodup_nil
  | append_singleton sources source ih =>
    rw [allToFront_concat]
    exact nodup_toFront ih source

theorem mem_allToFront {sources : List Bytes} {source : Bytes} :
    source ∈ allToFront [] sources ↔ source ∈ sources := by
  induction sources using List.reverseRecOn with
  | nil => rfl
  | append_singleton sources other ih =>
    rw [allToFront_concat, mem_toFront, ih, List.mem_append, List.mem_singleton, or_comm]

theorem length_allToFront (sources : List Bytes) :
    (allToFront [] sources).length = sources.dedup.length := by
  refine ((List.perm_ext_iff_of_nodup (nodup_allToFront sources) (List.nodup_dedup sources)).mpr
    fun source => ?_).length_eq
  rw [mem_allToFront, List.mem_dedup]

/-- The sources that compile, in the order of the requests. -/
def compiledSources (requests : List Request) : List Bytes :=
  (requests.filter Request.compiles).map Request.source

/-- The sources that compile, each of them once, in the order of their last requests, the latest
first. -/
def recent (past : List Request) : List Bytes := allToFront [] (compiledSources past)

theorem recent_concat_of_compiles (past : List Request) {r : Request} (h : r.compiles = true) :
    recent (past ++ [r]) = toFront (recent past) r.source := by
  rw [recent, compiledSources, List.filter_append, List.map_append, List.filter_singleton, h]
  exact allToFront_concat ..

theorem recent_concat_of_not_compiles (past : List Request) {r : Request}
    (h : r.compiles = false) : recent (past ++ [r]) = recent past := by
  rw [recent, compiledSources, List.filter_append, List.filter_singleton, h]
  simp [recent, compiledSources]

/-- The source compiled at an earlier request, and fewer than `size` distinct other sources that
compile have been requested since its last request. -/
def IsRecent (size : Nat) (past : List Request) (source : Bytes) : Prop :=
  ∃ before last since, past = before ++ last :: since ∧
    last.source = source ∧ last.compiles = true ∧ (∀ r ∈ since, r.source ≠ source) ∧
    (compiledSources since).dedup.length < size

/-- A member that does not stand earlier is in front exactly when little stands before it. -/
theorem mem_take_append_cons {α : Type} {x : α} {front back : List α} (h : x ∉ front) (n : Nat) :
    x ∈ (front ++ x :: back).take n ↔ front.length < n := by
  rw [List.take_append, List.mem_append]
  constructor
  · rintro (hmem | hmem)
    · exact absurd (List.mem_of_mem_take hmem) h
    · have hne : n - front.length ≠ 0 := by
        intro hzero
        rw [hzero] at hmem
        cases hmem
      omega
  · intro hlt
    obtain ⟨k, hk⟩ : ∃ k, n - front.length = k + 1 := ⟨n - front.length - 1, by omega⟩
    right
    rw [hk, List.take_succ_cons]
    exact List.mem_cons_self

/-- The order of last requests when a source that compiles is not requested again. -/
theorem recent_append_cons (before : List Request) {since : List Request} {last : Request}
    (hcompiles : last.compiles = true) (hsince : ∀ r ∈ since, r.source ≠ last.source) :
    last.source ∉ recent since ∧
      ∃ back, recent (before ++ last :: since) = recent since ++ last.source :: back := by
  have hnot : last.source ∉ compiledSources since := by
    intro hmem
    obtain ⟨r, hr, hsource⟩ := List.mem_map.mp hmem
    exact hsince r (List.mem_of_mem_filter hr) hsource
  refine ⟨fun hmem => hnot (mem_allToFront.mp hmem), ?_⟩
  have hsources : compiledSources (before ++ last :: since)
      = compiledSources (before ++ [last]) ++ compiledSources since := by
    rw [List.append_cons, compiledSources, List.filter_append, List.map_append]
    rfl
  have horder : recent (before ++ last :: since)
      = allToFront (recent (before ++ [last])) (compiledSources since) := by
    rw [recent, hsources]
    exact List.foldl_append
  rw [horder, allToFront_eq_append, recent_concat_of_compiles before hcompiles, toFront,
    List.filter_cons_of_pos (by simpa using hnot)]
  exact ⟨_, rfl⟩

/-- The first sources in the order of last requests. -/
theorem mem_take_recent_iff {past : List Request} {size : Nat} {source : Bytes} :
    source ∈ (recent past).take size ↔ IsRecent size past source := by
  constructor
  · intro hmem
    have hin : source ∈ compiledSources past := mem_allToFront.mp (List.mem_of_mem_take hmem)
    obtain ⟨r, hr, hsource⟩ := List.mem_map.mp hin
    obtain ⟨hr, hcompiles⟩ := List.mem_filter.mp hr
    -- the last request for the source is the first one in the reversed list
    cases hfind : past.reverse.find? (·.source == source) with
    | none =>
      have hnone := List.find?_eq_none.mp hfind r (List.mem_reverse.mpr hr)
      simp [hsource] at hnone
    | some last =>
      obtain ⟨hlast, since, before, hrev, hsince⟩ := List.find?_eq_some_iff_append.mp hfind
      have hlast : last.source = source := beq_iff_eq.mp hlast
      have hpast : past = before.reverse ++ last :: since.reverse := by
        rw [← List.reverse_reverse past, hrev]
        simp
      have hcompiles : last.compiles = true :=
        (Request.compiles_congr (hlast.trans hsource.symm)).trans hcompiles
      have hother : ∀ q ∈ since.reverse, q.source ≠ source := by
        intro q hq
        simpa using hsince q (List.mem_reverse.mp hq)
      refine ⟨_, last, _, hpast, hlast, hcompiles, hother, ?_⟩
      subst hlast
      obtain ⟨hfront, back, horder⟩ := recent_append_cons before.reverse hcompiles hother
      rw [hpast, horder, mem_take_append_cons hfront] at hmem
      exact length_allToFront (compiledSources since.reverse) ▸ hmem
  · rintro ⟨before, last, since, rfl, rfl, hcompiles, hother, hfew⟩
    obtain ⟨hfront, back, horder⟩ := recent_append_cons before hcompiles hother
    rw [horder, mem_take_append_cons hfront]
    exact (length_allToFront (compiledSources since)).symm ▸ hfew

/-! ### What the cache holds -/

/-- The first members after a source among them came to the front. -/
theorem toFront_take_of_mem {order : List Bytes} {source : Bytes} {n : Nat} (h : order.Nodup)
    (hmem : source ∈ order.take n) :
    toFront (order.take n) source = (toFront order source).take n := by
  obtain ⟨front, back, rfl⟩ := List.append_of_mem (List.mem_of_mem_take hmem)
  have hfront : source ∉ front := by
    intro hin
    exact (List.nodup_append.mp h).2.2 source hin source List.mem_cons_self rfl
  have hback : source ∉ back := (List.nodup_cons.mp (List.nodup_append.mp h).2.1).1
  have hlt := (mem_take_append_cons hfront n).mp hmem
  have hkeep : ∀ {part : List Bytes}, source ∉ part → part.filter (· != source) = part := by
    intro part hpart
    refine List.filter_eq_self.mpr fun other hother => ?_
    exact bne_iff_ne.mpr fun heq => hpart (heq ▸ hother)
  obtain ⟨k, rfl⟩ : ∃ k, n = front.length + 1 + k := ⟨n - (front.length + 1), by omega⟩
  have hleft : (front ++ source :: back).take (front.length + 1 + k)
      = front ++ source :: back.take k := by
    rw [List.append_cons, List.take_append, List.take_of_length_le (by simp)]
    simp
  have hright : (front ++ back).take (front.length + k) = front ++ back.take k := by
    rw [List.take_length_add_append]
  have hshort : source ∉ back.take k := fun hin => hback (List.mem_of_mem_take hin)
  rw [hleft, toFront, toFront, List.filter_append, List.filter_cons_of_neg (by simp),
    List.filter_append, List.filter_cons_of_neg (by simp), hkeep hfront, hkeep hback, hkeep hshort,
    Nat.add_right_comm, List.take_succ_cons, hright]

/-- The first members after a source that was not among them came to the front. -/
theorem cons_take_of_notMem {order : List Bytes} {source : Bytes} {n : Nat}
    (h : source ∉ order.take n) :
    (source :: order.take n).take n = (toFront order source).take n := by
  cases n with
  | zero => rfl
  | succ k =>
    have hkeep : (order.take (k + 1)).filter (· != source) = order.take (k + 1) := by
      refine List.filter_eq_self.mpr fun other hother => ?_
      exact bne_iff_ne.mpr fun heq => h (heq ▸ hother)
    have hrest : (order.filter (· != source)).take k = (order.take (k + 1)).take k := by
      conv_lhs => rw [← List.take_append_drop (k + 1) order, List.filter_append, hkeep]
      rw [List.take_append]
      by_cases hlen : k ≤ (order.take (k + 1)).length
      · rw [Nat.sub_eq_zero_of_le hlen, List.take_zero, List.append_nil]
      · have hshort : order.drop (k + 1) = [] := by
          rw [List.length_take] at hlen
          exact List.drop_eq_nil_of_le (by omega)
        simp [hshort]
    rw [List.take_succ_cons, toFront, List.take_succ_cons, hrest]

namespace Cache

/-- The cache holds the first sources in the order of last requests, with the code that they have
under every file name. -/
structure Keeps (c : Cache) (size : Nat) (past : List Request) : Prop where
  capacity : c.capacity = size
  sources : c.entries.map Prod.fst = (recent past).take size
  code : ∀ e ∈ c.entries, ∀ file, Request.answer ⟨file, e.1⟩ = .ok e.2

variable {c : Cache} {size : Nat} {past : List Request}

theorem keeps_empty (size : Nat) : (empty size).Keeps size [] := by
  refine ⟨rfl, ?_, ?_⟩
  · simp [empty, recent, compiledSources, allToFront]
  · rintro e ⟨⟩

theorem Keeps.compiles (h : c.Keeps size past) {source : Bytes}
    (hmem : source ∈ c.entries.map Prod.fst) (file : Bytes) :
    Request.compiles ⟨file, source⟩ = true := by
  obtain ⟨e, he, rfl⟩ := List.mem_map.mp hmem
  exact Request.compiles_iff.mpr ⟨e.2, h.code e he file⟩

/-- A source that is not kept is not found. -/
theorem get?_eq_none {source : Bytes} (h : source ∉ c.entries.map Prod.fst) :
    c.get? source = none := by
  have hfind : c.entries.find? (·.1 == source) = none := by
    refine List.find?_eq_none.mpr fun e he => ?_
    rw [beq_iff_eq]
    rintro rfl
    exact h (List.mem_map_of_mem he)
  rw [get?, hfind]

/-- A source that is kept is found, with its code, and comes to the front. -/
theorem Keeps.get? (h : c.Keeps size past) {r : Request}
    (hmem : r.source ∈ c.entries.map Prod.fst) :
    ∃ code c', c.get? r.source = some (code, c') ∧ r.answer = .ok code ∧
      c'.Keeps size (past ++ [r]) := by
  have hcompiles : r.compiles = true := h.compiles hmem r.file
  obtain ⟨e, he⟩ : ∃ e, c.entries.find? (·.1 == r.source) = some e := by
    obtain ⟨e, he, hsource⟩ := List.mem_map.mp hmem
    refine Option.isSome_iff_exists.mp (List.find?_isSome.mpr ⟨e, he, ?_⟩)
    exact beq_iff_eq.mpr hsource
  have hin : e ∈ c.entries := List.mem_of_find?_eq_some he
  have hsource : e.1 = r.source := by simpa using List.find?_some he
  refine ⟨e.2, { c with entries := e :: c.entries.filter (·.1 != r.source) }, ?_, ?_, ?_⟩
  · rw [Cache.get?, he]
  · rw [← h.code e hin r.file, hsource]
  · refine ⟨h.capacity, ?_, ?_⟩
    · have hkeys : (e :: c.entries.filter (·.1 != r.source)).map Prod.fst
          = toFront (c.entries.map Prod.fst) r.source := by
        rw [toFront, List.map_cons, hsource, List.filter_map]
        rfl
      rw [hkeys, recent_concat_of_compiles past hcompiles, h.sources]
      rw [h.sources] at hmem
      exact toFront_take_of_mem (nodup_allToFront _) hmem
    · intro e' he'
      rcases List.mem_cons.mp he' with rfl | he'
      · exact h.code e' hin
      · exact h.code e' (List.mem_of_mem_filter he')

/-- A source that compiles and was not kept comes to the front. -/
theorem Keeps.add (h : c.Keeps size past) {r : Request} {code : List Instr}
    (hmem : r.source ∉ c.entries.map Prod.fst) (hcode : r.answer = .ok code) :
    (c.add r.source code).Keeps size (past ++ [r]) := by
  have hcompiles : r.compiles = true := Request.compiles_iff.mpr ⟨code, hcode⟩
  refine ⟨h.capacity, ?_, ?_⟩
  · rw [recent_concat_of_compiles past hcompiles]
    rw [h.sources] at hmem
    rw [← cons_take_of_notMem hmem, ← h.sources, ← h.capacity]
    show (((r.source, code) :: c.entries).take c.capacity).map Prod.fst = _
    rw [List.map_take, List.map_cons]
  · intro e he file
    rcases List.mem_cons.mp (List.mem_of_mem_take he) with rfl | he
    · exact Request.answer_of_ok hcode rfl
    · exact h.code e he file

end Cache

/-! ### The workbench -/

namespace Workbench

/-- The workbench after requests, one after the other. -/
def after (w : Workbench) (requests : List Request) : Workbench :=
  requests.foldl (fun w r => (w.compileSource r.file r.source).1) w

theorem after_concat (w : Workbench) (past : List Request) (r : Request) :
    w.after (past ++ [r]) = ((w.after past).compileSource r.file r.source).1 :=
  List.foldl_concat ..

/-- The record of a request that the cache answered. -/
def hit (w : Workbench) (file : Bytes) : LogRecord :=
  w.logger.debug "Compile cache hit" [("file", file)]

theorem compileSource_of_none (w : Workbench) (hcache : w.cache = none) (r : Request) :
    w.compileSource r.file r.source = (w, .empty, r.answer) := by
  have hcompile : (Program.ofSource r.file r.source >>= Program.compile) = r.answer := rfl
  simp only [compileSource, hcache, Option.bind_none, hcompile]
  cases r.answer with
  | error f => rfl
  | ok code =>
    show ({ w with cache := none }, Trail.empty, Except.ok code) = _
    rw [← hcache]

/-- What one request does when there is a cache. -/
theorem compileSource_of_keeps {w : Workbench} {c : Cache} {size : Nat} {past : List Request}
    (hcache : w.cache = some c) (h : c.Keeps size past) (r : Request) :
    ∃ c' trail, c'.Keeps size (past ++ [r]) ∧
      w.compileSource r.file r.source = ({ w with cache := some c' }, trail, r.answer) ∧
      (IsRecent size past r.source ∧ trail = .logged [w.hit r.file] ∨
        ¬ IsRecent size past r.source ∧ trail = .empty) ∧
      (r.compiles = false → c' = c) := by
  rw [← mem_take_recent_iff, ← h.sources]
  by_cases hmem : r.source ∈ c.entries.map Prod.fst
  · obtain ⟨code, c', hget, hcode, hkeeps⟩ := h.get? hmem
    refine ⟨c', .logged [w.hit r.file], hkeeps, ?_, .inl ⟨hmem, rfl⟩, ?_⟩
    · rw [compileSource, hcache, Option.bind_some, hget, hcode]
      rfl
    · intro hfails
      rw [h.compiles hmem r.file] at hfails
      cases hfails
  · have hmiss : w.cache.bind (·.get? r.source) = none := by
      rw [hcache, Option.bind_some, Cache.get?_eq_none hmem]
    cases hanswer : r.answer with
    | error f =>
      have hfails : r.compiles = false := by
        rw [Request.compiles, hanswer]
        rfl
      have hsame : recent (past ++ [r]) = recent past := recent_concat_of_not_compiles past hfails
      refine ⟨c, .empty, ⟨h.capacity, hsame ▸ h.sources, h.code⟩, ?_, .inr ⟨hmem, rfl⟩,
        fun _ => rfl⟩
      rw [Request.answer] at hanswer
      rw [compileSource, hmiss, hanswer, ← hcache]
    | ok code =>
      have hcompiles : r.compiles = true := Request.compiles_iff.mpr ⟨code, hanswer⟩
      refine ⟨c.add r.source code, .empty, h.add hmem hanswer, ?_, .inr ⟨hmem, rfl⟩, ?_⟩
      · rw [Request.answer] at hanswer
        rw [compileSource, hmiss, hanswer, hcache]
        rfl
      · intro hfails
        rw [hcompiles] at hfails
        cases hfails

/-- Without a cache, requests leave the workbench as it is. -/
theorem after_of_none {w : Workbench} (hcache : w.cache = none) (past : List Request) :
    w.after past = w := by
  induction past using List.reverseRecOn with
  | nil => rfl
  | append_singleton past r ih => rw [after_concat, ih, compileSource_of_none w hcache r]

/-- After requests, the cache holds what the order of last requests says. -/
theorem exists_keeps {w : Workbench} {size : Nat} (hcache : w.cache = some (.empty size))
    (past : List Request) :
    ∃ c : Cache, w.after past = { w with cache := some c } ∧ c.Keeps size past := by
  induction past using List.reverseRecOn with
  | nil =>
    refine ⟨.empty size, ?_, Cache.keeps_empty size⟩
    rw [← hcache]
    rfl
  | append_singleton past r ih =>
    obtain ⟨c, hafter, hkeeps⟩ := ih
    obtain ⟨c', trail, hkeeps', hcall, -⟩ := compileSource_of_keeps (congrArg cache hafter) hkeeps r
    refine ⟨c', ?_, hkeeps'⟩
    rw [after_concat, hcall, hafter]

/-- **The cache cannot be seen, except in the log.** Take a workbench with a cache of any size,
positive or not, after any requests, and make one more request. The answer is that of a workbench
without a cache: the same code, or the same failure, at a place in the file of this request. The
cache is used, which the log tells, exactly when its size is positive, the source compiled at an
earlier request, and fewer distinct other sources that compile than the size have been requested
since its last request. A source that fails changes nothing, and only sources that compile are kept,
with their code. -/
theorem cache_cannot_be_seen (w : Workbench) (size : Int) (past : List Request) (r : Request) :
    let cached := after { w with cache := cacheOfSize size } past
    let plain : Workbench := { w with cache := none }
    let call := cached.compileSource r.file r.source
    call.2.2 = (plain.compileSource r.file r.source).2.2 ∧
    (call.2.1 = .logged [w.logger.debug "Compile cache hit" [("file", r.file)]] ↔
      0 < size ∧ IsRecent size.toNat past r.source) ∧
    (call.2.1 = .logged [w.logger.debug "Compile cache hit" [("file", r.file)]] ∨
      call.2.1 = .empty) ∧
    (∀ f, call.2.2 = .error f →
      call.1 = cached ∧ ∃ span, f.span = some span ∧ span.file = r.file) ∧
    ∀ c, cached.cache = some c →
      ∀ e ∈ c.entries, ∀ file, (plain.compileSource file e.1).2.2 = .ok e.2 := by
  intro cached plain call
  have hplain : ∀ q : Request, (plain.compileSource q.file q.source).2.2 = q.answer := by
    intro q
    rw [compileSource_of_none plain rfl]
  have hsilent : Trail.empty ≠ .logged [w.hit r.file] := nofun
  by_cases hsize : 0 < size
  · have hcache : cacheOfSize size = some (.empty size.toNat) := if_pos hsize
    obtain ⟨c, hafter, hkeeps⟩ : ∃ c : Cache, cached = { w with cache := some c } ∧ _ :=
      exists_keeps (w := { w with cache := cacheOfSize size }) hcache past
    obtain ⟨c', trail, -, hcall, htrail, hsame⟩ :=
      compileSource_of_keeps (congrArg cache hafter) hkeeps r
    have hcall : call = ({ cached with cache := some c' }, trail, r.answer) := hcall
    have hlogger : cached.hit r.file = w.hit r.file := by
      rw [hafter]
      rfl
    rw [hlogger] at htrail
    rw [hcall, hplain]
    refine ⟨rfl, ?_, htrail.imp And.right And.right, ?_, ?_⟩
    · rcases htrail with ⟨hrecent, rfl⟩ | ⟨hnot, rfl⟩
      · exact iff_of_true rfl ⟨hsize, hrecent⟩
      · exact iff_of_false hsilent fun h => hnot h.2
    · intro f hf
      have hanswer : r.answer = .error f := hf
      have hfails : r.compiles = false := by
        rw [Request.compiles, hanswer]
        rfl
      refine ⟨?_, Request.file_of_error hf⟩
      rw [hsame hfails, hafter]
    · intro k hk e he file
      rw [hplain ⟨file, e.1⟩]
      rw [hafter] at hk
      cases hk
      exact hkeeps.code e he file
  · have hcache : cacheOfSize size = none := if_neg hsize
    have hafter : cached = plain := by
      show after { w with cache := cacheOfSize size } past = _
      rw [hcache]
      exact after_of_none rfl past
    have hcall : call = (plain, .empty, r.answer) := by
      show cached.compileSource r.file r.source = _
      rw [hafter, compileSource_of_none plain rfl]
    rw [hcall, hplain, hafter]
    refine ⟨rfl, iff_of_false hsilent fun h => hsize h.1, .inr rfl, ?_, nofun⟩
    intro f hf
    exact ⟨rfl, Request.file_of_error hf⟩

/-- A source is requested again after one that fails and another one. A cache of size two still has
it, and one of size one has lost it; the answers are the same. -/
theorem cache_cannot_be_seen_evicted :
    let w : Workbench := ⟨none, ⟨[]⟩, "cli", false, false, false, none⟩
    let past : List Request := [⟨"a", "@ 1"⟩, ⟨"b", "@ +"⟩, ⟨"c", "@ 2"⟩]
    let large := after { w with cache := cacheOfSize 2 } past
    let small := after { w with cache := cacheOfSize 1 } past
    (large.compileSource "d" "@ 1").2.1
        = .logged [w.logger.debug "Compile cache hit" [("file", "d")]] ∧
      (small.compileSource "d" "@ 1").2.1 = .empty ∧
      (large.compileSource "d" "@ 1").2.2 = (small.compileSource "d" "@ 1").2.2 := by
  intro w past large small
  obtain ⟨hlarge, hhit, -⟩ := cache_cannot_be_seen w 2 past ⟨"d", "@ 1"⟩
  obtain ⟨hsmall, hmiss, hempty, -⟩ := cache_cannot_be_seen w 1 past ⟨"d", "@ 1"⟩
  have hkept : IsRecent 2 past "@ 1" := mem_take_recent_iff.mp (by decide)
  have hlost : ¬ IsRecent 1 past "@ 1" := mt mem_take_recent_iff.mpr (by decide)
  refine ⟨hhit.mpr ⟨by decide, hkept⟩, ?_, hlarge.trans hsmall.symm⟩
  exact hempty.resolve_left fun hlogged => hlost (hmiss.mp hlogged).2

end Workbench

end Polish
