import Mathlib.Data.List.Chain
import Codexon.CollectionAppend

/-!
# Codexon.CollectionAppend.Combined

A composed answer is worth the payloads it was composed from.  `apply` is what a
reader does with a payload; the loop of `response` keeps its state equivalent to
the payloads read so far (`Stands`), and breaks off exactly at a broken link.
-/

namespace Codexon.Append

open List

/-! ## a reader -/

/-- The copy of a session that a reader keeps. -/
structure Body where
  history : List Json
  requests : PyStr → Option (Nat × Json)
  turns : PyStr → Option Json
  metadata : List (PyStr × Json)
  token : Json
  sourceToken : Json
  /-- The last row, whose time and key are the frontier. -/
  frontier : Option Json
  rawCount : Nat
  contextDigest : PyStr
  revision : Json
  joinEpoch : Json
  generation : Json
  requestMaps : List PyStr

def upsert {α : Type} (map : PyStr → Option α) (rows : List (PyStr × α)) : PyStr → Option α :=
  rows.foldl (fun map row name => if name = row.1 then some row.2 else map name) map

def apply (p : Payload) (b : Body) : Body where
  history := b.history ++ p.tail
  requests := upsert b.requests p.requests.upserts
  turns := upsert b.turns p.turns.upserts
  metadata := p.metadata
  token := p.token
  sourceToken := p.sourceToken
  frontier := p.tail.getLast?.or b.frontier
  rawCount := p.rawCount
  contextDigest := p.contextDigest
  revision := p.evidence.revision
  joinEpoch := p.evidence.joinEpoch
  generation := p.evidence.generation
  requestMaps := p.requestMaps

def applyAll (chain : List Link) (b : Body) : Body :=
  chain.foldl (fun b link => apply link.packet.value b) b

/-- A payload as `complete` issues it. -/
def Payload.Certified (p : Payload) : Prop :=
  p.rawCount = p.priorRawCount + p.tail.length ∧ p.tail.length ≤ tailRows

/-! ## upserts -/

theorem upsert_append {α : Type} (map : PyStr → Option α) (rows rows' : List (PyStr × α)) :
    upsert map (rows ++ rows') = upsert (upsert map rows) rows' := foldl_append

theorem upsert_apply {α : Type} (map : PyStr → Option α) {rows : List (PyStr × α)}
    (hnodup : (rows.map Prod.fst).Nodup) (name : PyStr) :
    upsert map rows name = ((rows.find? (·.1 = name)).map (·.2)).or (map name) := by
  induction rows generalizing map with
  | nil => rfl
  | cons row rows ih =>
    rw [map_cons, nodup_cons] at hnodup
    show upsert _ rows name = _
    rw [ih _ hnodup.2]
    by_cases hname : row.1 = name
    · have habsent : rows.find? (·.1 = name) = none := by
        refine List.find?_eq_none.mpr fun r hr hsame => hnodup.1 ?_
        have : r.1 = row.1 := by rw [hname]; simpa using hsame
        exact List.mem_map.mpr ⟨r, hr, this⟩
      rw [habsent, find?_cons_of_pos (by simpa using hname)]
      dsimp only
      rw [if_pos hname.symm]
      rfl
    · rw [find?_cons_of_neg (by simpa using hname)]
      dsimp only
      rw [if_neg (Ne.symm hname)]

theorem upsert_perm {α : Type} (map : PyStr → Option α) {rows rows' : List (PyStr × α)}
    (hperm : rows.Perm rows') (hnodup : (rows.map Prod.fst).Nodup) :
    upsert map rows = upsert map rows' := by
  funext name
  have hnodup' : (rows'.map Prod.fst).Nodup := (hperm.map Prod.fst).nodup_iff.mp hnodup
  rw [upsert_apply map hnodup, upsert_apply map hnodup']
  congr 1
  -- Both dictionaries hold the same entries, so they hold the same values.
  have hget : (⟨rows, hnodup⟩ : Dict PyStr α).get? name = (⟨rows', hnodup'⟩ : Dict PyStr α).get? name := by
    refine Option.ext fun v => ?_
    rw [Dict.get?_eq_some, Dict.get?_eq_some]
    exact hperm.mem_iff
  exact hget

theorem upsert_set {α : Type} (map : PyStr → Option α) (d : Dict PyStr α) (row : PyStr × α) :
    upsert map (d.set row.1 row.2).entries = upsert (upsert map d.entries) [row] := by
  funext name
  show _ = if name = row.1 then some row.2 else upsert map d.entries name
  rw [upsert_apply map (d.set row.1 row.2).nodup, upsert_apply map d.nodup]
  have hset := Dict.get?_set d row.1 name row.2
  unfold Dict.get? at hset
  rw [hset]
  split <;> rfl

theorem upsert_update {α : Type} (map : PyStr → Option α) (d : Dict PyStr α)
    (rows : List (PyStr × α)) :
    upsert map (d.update rows).entries = upsert (upsert map d.entries) rows := by
  induction rows generalizing d with
  | nil => rfl
  | cons row rows ih =>
    have hfirst := ih (d.set row.1 row.2)
    rw [upsert_set] at hfirst
    exact hfirst

/-! ## the loop -/

/-- The state of the loop after the links `done`, the last of which is `before`. -/
structure Stands (done : List Link) (before : Link) (state : Composed) : Prop where
  value_eq : state.value = before.packet.value
  tail_eq : state.tail = done.flatMap (·.packet.value.tail)
  requests_eq : ∀ map, upsert map state.requests.entries =
    upsert map (done.flatMap (·.packet.value.requests.upserts))
  turns_eq : ∀ map, upsert map state.turns.entries =
    upsert map (done.flatMap (·.packet.value.turns.upserts))
  last_eq : done.getLast? = some before

def Linked (before after : Link) : Prop :=
  joins before after before.packet.value after.packet.value = true

theorem Stands.first (first : Link) : Stands [first] first
    { value := first.packet.value, tail := first.packet.value.tail
      requests := Dict.update {} first.packet.value.requests.upserts
      turns := Dict.update {} first.packet.value.turns.upserts } where
  value_eq := rfl
  tail_eq := by simp
  requests_eq map := by
    rw [upsert_update]
    simp [upsert]
  turns_eq map := by
    rw [upsert_update]
    simp [upsert]
  last_eq := rfl

/-- **The loop keeps its state**, and follows linked links only. -/
theorem compose_eq {done : List Link} {before : Link} {state : Composed}
    (hstands : Stands done before state) (rest : List Link) :
    (∀ state', compose state before rest = some state' → (before :: rest).IsChain Linked ∧
        Stands (done ++ rest) ((before :: rest).getLast (by simp)) state') ∧
    (compose state before rest = none → ¬ (before :: rest).IsChain Linked) := by
  induction rest generalizing done before state with
  | nil =>
    refine ⟨fun state' hstate => ?_, fun hnone => by cases hnone⟩
    obtain rfl := Option.some.inj hstate
    rw [List.append_nil]
    exact ⟨.singleton _, hstands⟩
  | cons after rest ih =>
    unfold compose
    dsimp only
    rw [hstands.value_eq]
    by_cases hlinked : joins before after before.packet.value after.packet.value = true
    · rw [if_pos hlinked]
      have hnext : Stands (done ++ [after]) after
          { value := after.packet.value
            tail := state.tail ++ after.packet.value.tail
            requests := state.requests.update after.packet.value.requests.upserts
            turns := state.turns.update after.packet.value.turns.upserts } := by
        refine ⟨rfl, ?_, fun map => ?_, fun map => ?_, by simp⟩
        · rw [hstands.tail_eq, flatMap_append]
          simp
        · rw [upsert_update, hstands.requests_eq, flatMap_append, upsert_append]
          simp
        · rw [upsert_update, hstands.turns_eq, flatMap_append, upsert_append]
          simp
      obtain ⟨hsome, hnone⟩ := ih hnext
      refine ⟨fun state' hstate => ?_, fun hbroken hchain => ?_⟩
      · obtain ⟨hchain, hfinal⟩ := hsome state' hstate
        rw [append_assoc] at hfinal
        exact ⟨isChain_cons_cons.mpr ⟨hlinked, hchain⟩, hfinal⟩
      · exact hnone hbroken (isChain_cons_cons.mp hchain).2
    · rw [if_neg hlinked]
      exact ⟨fun state' hstate => (by cases hstate),
        fun _ hchain => hlinked (isChain_cons_cons.mp hchain).1⟩

/-! ## a chain as one payload -/

theorem applyAll_append (chain rest : List Link) (b : Body) :
    applyAll (chain ++ rest) b = applyAll rest (applyAll chain b) := foldl_append

theorem applyAll_eq {chain : List Link} {last : Link} (hlast : chain.getLast? = some last)
    (b : Body) : applyAll chain b = { apply last.packet.value b with
      history := b.history ++ chain.flatMap (·.packet.value.tail)
      requests := upsert b.requests (chain.flatMap (·.packet.value.requests.upserts))
      turns := upsert b.turns (chain.flatMap (·.packet.value.turns.upserts))
      frontier := (chain.flatMap (·.packet.value.tail)).getLast?.or b.frontier } := by
  induction chain using List.reverseRecOn generalizing last with
  | nil => cases hlast
  | append_singleton chain link ih =>
    obtain rfl : link = last := by simpa using hlast
    rw [applyAll_append]
    cases hbefore : chain.getLast? with
    | none =>
      obtain rfl := getLast?_eq_none_iff.mp hbefore
      simp [applyAll, apply]
    | some before =>
      rw [ih hbefore]
      simp only [applyAll, foldl_cons, foldl_nil, apply, flatMap_append,
        flatMap_singleton, upsert_append, append_assoc, getLast?_append,
        Option.or_assoc]

variable {rest : List Link}

theorem rawCount_eq {first : Link} {last : Link}
    (hchain : (first :: rest).IsChain Linked) (hlast : (first :: rest).getLast? = some last)
    (hcertified : ∀ link ∈ first :: rest, link.packet.value.Certified) :
    last.packet.value.rawCount = first.packet.value.priorRawCount +
      ((first :: rest).flatMap (·.packet.value.tail)).length := by
  induction rest generalizing first with
  | nil =>
    obtain rfl : first = last := by simpa using hlast
    simpa using (hcertified first mem_cons_self).1
  | cons after rest ih =>
    obtain ⟨hlinked, hrest⟩ := isChain_cons_cons.mp hchain
    have hcount : first.packet.value.rawCount = after.packet.value.priorRawCount := by
      unfold Linked joins at hlinked
      simp only [Bool.and_eq_true, decide_eq_true_eq] at hlinked
      exact hlinked.1.1.1.1.1.1.2
    have hfirst := (hcertified first mem_cons_self).1
    have hlater := ih hrest (by simpa using hlast) fun link hlink =>
      hcertified link (mem_cons_of_mem first hlink)
    have hsplit : ((first :: after :: rest).flatMap (·.packet.value.tail)).length =
        first.packet.value.tail.length +
          ((after :: rest).flatMap (·.packet.value.tail)).length := by
      rw [flatMap_cons, length_append]
    omega

def Removes (p : Payload) : Prop := p.requests.removed ≠ [] ∨ p.turns.removed ≠ []

/-- **A composed answer** is worth its chain, which is linked and removes nothing. -/
theorem composedAnswer_eq {codec : Codec} {first : Link} {answer : Answer}
    (hanswer : composedAnswer codec first rest = .ok (some answer)) :
    (first :: rest).IsChain Linked ∧ ¬ Removes first.packet.value ∧
      answer.value.tail = (first :: rest).flatMap (·.packet.value.tail) ∧
      answer.value.tail.length ≤ tailRows ∧
      answer.value.priorRawCount = first.packet.value.priorRawCount ∧
      answer.value.rawCount = ((first :: rest).getLast (by simp)).packet.value.rawCount ∧
      ∀ body, apply answer.value body = applyAll (first :: rest) body := by
  unfold composedAnswer at hanswer
  dsimp only at hanswer
  by_cases hremoved : first.packet.value.requests.removed ≠ [] ∨
      first.packet.value.turns.removed ≠ []
  · rw [if_pos hremoved] at hanswer
    cases hanswer
  · rw [if_neg hremoved] at hanswer
    cases hstate : compose { value := first.packet.value, tail := first.packet.value.tail
                             requests := Dict.update {} first.packet.value.requests.upserts
                             turns := Dict.update {} first.packet.value.turns.upserts }
        first rest with
    | none =>
      rw [hstate] at hanswer
      cases hanswer
    | some state =>
      obtain ⟨hchain, hstands⟩ := (compose_eq (Stands.first first) rest).1 state hstate
      rw [singleton_append] at hstands
      have hlast := hstands.last_eq
      rw [hstate] at hanswer
      dsimp only at hanswer
      split at hanswer
      case isTrue => cases hanswer
      case isFalse hfits =>
        push Not at hfits
        obtain ⟨tailDigest, -, hanswer⟩ := ok_of_bind hanswer
        split at hanswer
        case h_2 => cases hanswer
        case h_1 =>
          split at hanswer
          case isTrue => cases hanswer
          case isFalse =>
            obtain rfl := Option.some.inj (Except.ok.inj hanswer)
            refine ⟨hchain, hremoved, hstands.tail_eq, hfits.1, rfl, ?_, fun body => ?_⟩
            · exact congrArg (·.rawCount) hstands.value_eq
            · have hsorted : ∀ map, upsert map
                  (state.requests.entries.mergeSort fun a b => a.2.1 ≤ b.2.1) =
                  upsert map state.requests.entries := fun map =>
                upsert_perm map (mergeSort_perm _ _)
                  (((mergeSort_perm _ _).map Prod.fst).nodup_iff.mpr state.requests.nodup)
              rw [applyAll_eq hlast body]
              simp only [apply, combined, hstands.value_eq, hstands.tail_eq, hsorted,
                hstands.requests_eq, hstands.turns_eq]

/-! ## bound packets -/

/-- The arguments of one `bind`. -/
structure Publication where
  packet : AppendPacket
  epoch : Nat
  priorBodyDigest : PyStr
  bodyDigest : PyStr
deriving DecidableEq

def bindAll (publications : List Publication) : Option Binding :=
  publications.foldl
    (fun previous p => some (bind p.packet p.epoch p.priorBodyDigest p.bodyDigest previous)) none

theorem bindAll_append (publications : List Publication) (p : Publication) :
    bindAll (publications ++ [p]) = some (bind p.packet p.epoch p.priorBodyDigest p.bodyDigest
      (bindAll publications)) := by
  unfold bindAll
  rw [foldl_append]
  rfl

/-- The link that `bind` adds. -/
def Publication.link (p : Publication) : Link :=
  ⟨p.packet, p.epoch, p.priorBodyDigest, p.bodyDigest⟩

/-- The later packet was bound on top of the earlier one. -/
def Continues (before after : Link) : Prop :=
  before.epoch = after.epoch ∧ before.bodyDigest = after.priorBodyDigest ∧
    before.packet.producer = after.packet.producer ∧
    same before.packet.token after.packet.priorToken

def rowsOf (chain : List Link) : Nat := (chain.map (·.packet.rows)).sum

theorem retain_eq (rows : Nat) {kept : List Link} (links : List Link)
    (hkept : kept.length < chainPackets) :
    ∃ n, retain rows kept links = kept ++ links.take n ∧
      (kept ++ links.take n).length < chainPackets ∧
      (n ≠ 0 → rows + rowsOf (links.take n) ≤ tailRows) := by
  induction links generalizing rows kept with
  | nil => exact ⟨0, by simp [retain], by simpa, by simp⟩
  | cons item older ih =>
    unfold retain
    split
    · exact ⟨0, by simp, by simpa, by simp⟩
    · next hfits =>
      push Not at hfits
      have hlonger : (kept ++ [item]).length < chainPackets := by
        simp only [length_append, length_singleton]
        omega
      obtain ⟨n, hretain, hlength, hrows⟩ := ih (rows + item.packet.rows) hlonger
      refine ⟨n + 1, by simpa using hretain, by simpa using hlength, fun _ => ?_⟩
      have hsum : rowsOf (take (n + 1) (item :: older)) =
          item.packet.rows + rowsOf (older.take n) := by simp [rowsOf]
      rcases Nat.eq_zero_or_pos n with rfl | hn
      · simpa [hsum, rowsOf] using hfits.1
      · have := hrows hn.ne'
        omega

/-- `bind` keeps the newest links of the chain below it, if it continues that chain. -/
theorem history_bind (p : Publication) (before : Binding) :
    let b := bind p.packet p.epoch p.priorBodyDigest p.bodyDigest (some before)
    (∃ n, b.history = before.chain.drop n) ∧ b.history.length < chainPackets ∧
      (b.history ≠ [] → Continues before.toLink p.link ∧
        p.packet.rows + rowsOf b.history ≤ tailRows) := by
  unfold bind
  dsimp only
  split
  · next hcontinues =>
    obtain ⟨n, hretain, hlength, hrows⟩ := retain_eq p.packet.rows before.chain.reverse
      (show [].length < chainPackets by decide)
    rw [nil_append] at hretain hlength
    rw [hretain, take_reverse, reverse_reverse]
    rw [take_reverse, length_reverse] at hlength
    refine ⟨⟨_, rfl⟩, hlength, fun hne => ⟨hcontinues, ?_⟩⟩
    have hn : n ≠ 0 := fun h => hne (by simp [h])
    simpa [take_reverse, rowsOf] using hrows hn
  · exact ⟨⟨before.chain.length, by simp⟩, by decide, fun h => absurd rfl h⟩

theorem mem_chain {publications : List Publication} {binding : Binding}
    (hbound : bindAll publications = some binding) :
    ∀ link ∈ binding.chain, ∃ p ∈ publications, link.packet = p.packet := by
  induction publications using List.reverseRecOn generalizing binding with
  | nil => cases hbound
  | append_singleton publications p ih =>
    rw [bindAll_append] at hbound
    obtain rfl := Option.some.inj hbound
    intro link hlink
    rcases mem_append.mp hlink with hhistory | hself
    · cases hbefore : bindAll publications with
      | none =>
        rw [hbefore] at hhistory
        cases hhistory
      | some before =>
        obtain ⟨⟨n, hn⟩, -⟩ := history_bind p before
        rw [hbefore, hn] at hhistory
        obtain ⟨q, hq, hpacket⟩ := ih hbefore link (mem_of_mem_drop hhistory)
        exact ⟨q, mem_append_left _ hq, hpacket⟩
    · obtain rfl := mem_singleton.mp hself
      exact ⟨p, by simp, rfl⟩

/-- The chain breaks: a payload removes a name, or two links do not follow each other. -/
def Broken (chain : List Link) : Prop :=
  (∃ link ∈ chain, Removes link.packet.value) ∨ ¬ chain.IsChain Linked

theorem linked_removes {before after : Link} (hlinked : Linked before after) :
    ¬ Removes after.packet.value := by
  unfold Linked joins at hlinked
  simp only [Bool.and_eq_true, decide_eq_true_eq] at hlinked
  rintro (hrequests | hturns)
  · exact hrequests hlinked.1.2
  · exact hturns hlinked.2

theorem isChain_removes {first : Link} (hchain : (first :: rest).IsChain Linked) :
    ∀ link ∈ rest, ¬ Removes link.packet.value := by
  induction rest generalizing first with
  | nil => simp
  | cons after rest ih =>
    obtain ⟨hlinked, hrest⟩ := isChain_cons_cons.mp hchain
    intro link hlink
    rcases mem_cons.mp hlink with rfl | hlink
    · exact linked_removes hlinked
    · exact ih hrest link hlink

theorem composedAnswer_broken (codec : Codec) {first : Link}
    (hbroken : Broken (first :: rest)) : composedAnswer codec first rest = .ok none := by
  unfold composedAnswer
  dsimp only
  by_cases hremoved : first.packet.value.requests.removed ≠ [] ∨
      first.packet.value.turns.removed ≠ []
  · rw [if_pos hremoved]
  · rw [if_neg hremoved]
    have hchain : ¬ (first :: rest).IsChain Linked := by
      intro hchain
      rcases hbroken with ⟨link, hlink, hremoves⟩ | hbroken
      · rcases mem_cons.mp hlink with rfl | hlink
        · exact hremoved hremoves
        · exact isChain_removes hchain link hlink hremoves
      · exact hbroken hchain
    cases hstate : compose { value := first.packet.value, tail := first.packet.value.tail
                             requests := Dict.update {} first.packet.value.requests.upserts
                             turns := Dict.update {} first.packet.value.turns.upserts }
        first rest with
    | none => rfl
    | some state =>
      exact absurd ((compose_eq (Stands.first first) rest).1 state hstate).1 hchain

theorem dropWhile_head {α : Type} {p : α → Bool} {xs rest : List α} {x : α}
    (hdrop : xs.dropWhile p = x :: rest) : p x = false := by
  induction xs with
  | nil => cases hdrop
  | cons y ys ih =>
    cases hy : p y with
    | true =>
      rw [dropWhile_cons_of_pos hy] at hdrop
      exact ih hdrop
    | false =>
      rw [dropWhile_cons_of_neg (by simp [hy])] at hdrop
      obtain ⟨rfl, -⟩ := List.cons.inj hdrop
      exact hy

/-- The chain that a reader of body `prior` misses. -/
def missed (binding : Binding) (prior : PyStr) : List Link :=
  if binding.priorBodyDigest = prior then [binding.toLink]
  else binding.chain.dropWhile fun item => item.priorBodyDigest ≠ prior

/-- **An answer is worth the packets it stands for**: whatever certified packets
were bound, applying the answer to any body is applying in order the payloads
from the first link whose predecessor is the reader's body; its tail is bounded
and counted, and a broken chain has no answer. -/
theorem response_eq_chain (codec : Codec) (publications : List Publication)
    (hcertified : ∀ p ∈ publications, p.packet.value.Certified) (binding : Binding)
    (hbound : bindAll publications = some binding) (prior : PyStr) :
    (∀ answer, response codec binding prior = .ok (some answer) →
      ((missed binding prior).head?.map (·.priorBodyDigest)) = some prior ∧
      (∀ body, apply answer.value body = applyAll (missed binding prior) body) ∧
      answer.value.tail.length ≤ tailRows ∧
      answer.value.rawCount = answer.value.priorRawCount + answer.value.tail.length) ∧
    (binding.priorBodyDigest ≠ prior → Broken (missed binding prior) →
      response codec binding prior = .ok none) := by
  have hlinks : ∀ link ∈ binding.chain, link.packet.value.Certified := by
    intro link hlink
    obtain ⟨p, hp, hpacket⟩ := mem_chain hbound link hlink
    rw [hpacket]
    exact hcertified p hp
  unfold response missed
  by_cases hprior : binding.priorBodyDigest = prior
  · rw [if_pos hprior, if_pos hprior]
    refine ⟨fun answer hanswer => ?_, fun hne => absurd hprior hne⟩
    obtain rfl := Option.some.inj (Except.ok.inj hanswer)
    have hself := hlinks binding.toLink (mem_append_right _ mem_cons_self)
    exact ⟨congrArg some hprior, fun body => rfl, hself.2, hself.1⟩
  · rw [if_neg hprior, if_neg hprior]
    cases hmissed : binding.chain.dropWhile fun item => item.priorBodyDigest ≠ prior with
    | nil =>
      refine ⟨fun answer hanswer => ?_, fun _ _ => rfl⟩
      cases Except.ok.inj hanswer
    | cons first rest =>
      dsimp only
      refine ⟨fun answer hanswer => ?_, fun _ hbroken => composedAnswer_broken codec hbroken⟩
      obtain ⟨hchain, -, htail, hshort, hfirst, hlast, happly⟩ := composedAnswer_eq hanswer
      have hsub : ∀ link ∈ first :: rest, link.packet.value.Certified := by
        intro link hlink
        rw [← hmissed] at hlink
        exact hlinks link ((dropWhile_sublist _).subset hlink)
      have hhead : first.priorBodyDigest = prior := by
        simpa using dropWhile_head hmissed
      refine ⟨congrArg some hhead, happly, hshort, ?_⟩
      rw [hlast, hfirst, htail]
      exact rawCount_eq hchain (getLast?_eq_some_getLast _) hsub

/-- A packet with one row after `n` others. -/
def plainPacket (n : Nat) : AppendPacket where
  charge := 0
  producer := 0
  key := (py "home", py "id")
  priorToken := .int n
  token := .int (n + 1)
  value := {
    format := 1, owner := (py "home", py "id"), priorToken := .int n, token := .int (n + 1)
    priorRawCount := n, rawCount := n + 1, priorFrontier := .null, tail := [.int n]
    tailDigest := [], contextDigest := []
    evidence := ⟨.int 0, .int 0, .int 0, .int 0⟩
    priorSourceToken := .int n, sourceToken := .int (n + 1), metadata := [], requestMaps := []
    requests := ⟨[], []⟩, turns := ⟨[], []⟩ }
  payload := []
  digest := []
  rows := 1

/-- Two packets of a chain, for a reader that misses both. -/
def plainPublications : List Publication :=
  [⟨plainPacket 0, 0, py "a", py "b"⟩, ⟨plainPacket 1, 0, py "b", py "c"⟩]

/-- The encoder that writes nothing. -/
def plainCodec : Codec := ⟨fun _ => .ok [], fun _ => []⟩

theorem response_eq_chain_pair : ∃ binding, bindAll plainPublications = some binding ∧
    (response plainCodec binding (py "a")).toOption.join.isSome ∧
    (missed binding (py "a")).length = 2 ∧
    ∀ answer, response plainCodec binding (py "a") = .ok (some answer) →
      ∀ body, apply answer.value body = applyAll (missed binding (py "a")) body := by
  have hcertified : ∀ p ∈ plainPublications, p.packet.value.Certified := by
    intro p hp
    simp only [plainPublications, mem_cons, not_mem_nil, or_false] at hp
    rcases hp with rfl | rfl
    · exact ⟨rfl, by decide⟩
    · exact ⟨rfl, by decide⟩
  refine ⟨_, rfl, by decide +kernel, by decide +kernel, fun answer hanswer => ?_⟩
  exact ((response_eq_chain plainCodec plainPublications hcertified _ rfl (py "a")).1 answer
    hanswer).2.1

/-- **The chain of a session**, whatever was bound: its links are the newest publications
without a gap, each bound on top of the one before, and their number and rows are limited. -/
theorem chain_of_binds {publications : List Publication} {binding : Binding}
    (hbound : bindAll publications = some binding) :
    binding.chain <:+ publications.map Publication.link ∧ binding.chain.IsChain Continues ∧
      binding.chain.length ≤ chainPackets ∧
      (binding.history ≠ [] → rowsOf binding.chain ≤ tailRows) := by
  induction publications using List.reverseRecOn generalizing binding with
  | nil => cases hbound
  | append_singleton publications p ih =>
    rw [bindAll_append] at hbound
    obtain rfl := Option.some.inj hbound
    cases hbefore : bindAll publications with
    | none => simp [bind, Binding.chain, Publication.link, chainPackets]
    | some before =>
      obtain ⟨⟨older, holder⟩, hchain, -, -⟩ := ih hbefore
      obtain ⟨⟨n, hhistory⟩, hlength, hkept⟩ := history_bind p before
      have hlink : (bind p.packet p.epoch p.priorBodyDigest p.bodyDigest (some before)).toLink =
        p.link := rfl
      generalize bind p.packet p.epoch p.priorBodyDigest p.bodyDigest (some before) = b at *
      rw [Binding.chain, hlink]
      refine ⟨⟨older ++ before.chain.take n, ?_⟩, ?_, ?_, fun hne => ?_⟩
      · rw [hhistory, map_append, ← holder, append_assoc, append_assoc,
          ← append_assoc (before.chain.take n), take_append_drop]
        rfl
      · refine isChain_append.mpr ⟨hhistory ▸ hchain.drop n, isChain_singleton _, ?_⟩
        intro x hx y hy
        have hkept := (hkept (ne_nil_of_mem (mem_of_getLast? hx))).1
        have hlast : before.chain.getLast? = some before.toLink := getLast?_concat
        rw [hhistory, getLast?_drop] at hx
        grind
      · simpa using Nat.succ_le_of_lt hlength
      · have := (hkept hne).2
        simpa [rowsOf, Publication.link, Nat.add_comm] using this

theorem chain_of_binds_pair : ∃ binding, bindAll plainPublications = some binding ∧
    binding.history ≠ [] ∧ binding.chain <:+ plainPublications.map Publication.link :=
  ⟨_, rfl, by decide +kernel, (chain_of_binds rfl).1⟩

end Codexon.Append
