import ShardCache.Network.GossipWire

/-!
# The texts of a gossip payload

A node that merges a `CLUSTER GOSSIP` request reads the port and the generation of every entry with
`std::stoi` and `std::stoull`, and takes every status that is not `left` for `alive`. The readers skip
blanks and signs and stop after the digits, the port is cut to 16 bits, and a negative generation
wraps. An entry is stored as it is written only if its texts are plain numerals in range.

## Main definitions

* `GossipEntry`, `gossipEntries`: the texts of the entries of a payload
* `GossipEntry.Denotes e m`: the texts are numerals of exactly what is stored
* `GossipEntry.Plain`: digits only, a port of at most 65535, and one of the two statuses

## Main results

* `gossip_as_written_iff`: a payload that is merged is stored as written exactly if it is plain
-/

namespace ShardCache

open CommandHandler

/-- The texts of an entry that are read as something else than text. -/
structure GossipEntry where
  port : Bytes
  generation : Bytes
  status : Bytes

/-- The entries of a payload, without what is left over behind the last one. -/
def gossipEntries : List Bytes → List GossipEntry
  | _ :: _ :: port :: generation :: status :: payload =>
    ⟨port, generation, status⟩ :: gossipEntries payload
  | _ => []

namespace GossipEntry

/-- The texts are decimal numerals of the stored port and generation, and the name of the stored
status. -/
def Denotes (e : GossipEntry) (m : MemberInfo) : Prop :=
  readDigits e.port = some m.node.port.toNat ∧ readDigits e.generation = some m.generation.toNat ∧
    e.status = if m.status = .alive then ascii "alive" else ascii "left"

/-- The port and the generation have digits only, the port is at most 65535, and the status is one of
the two. -/
def Plain (e : GossipEntry) : Prop :=
  (∃ n, readDigits e.port = some n ∧ n ≤ 65535) ∧ (∃ n, readDigits e.generation = some n) ∧
    (e.status = ascii "alive" ∨ e.status = ascii "left")

/-- What the handler reads from the texts. -/
structure Decodes (e : GossipEntry) (m : MemberInfo) : Prop where
  port : ∃ n, stoi e.port = some n ∧ m.node.port = UInt16.ofInt n
  generation : stoull e.generation = some m.generation
  status : m.status = if e.status = ascii "left" then .left else .alive

variable {e : GossipEntry} {m : MemberInfo}

/-- Texts that are decoded are stored as written exactly if they are plain. -/
theorem denotes_iff_plain (h : Decodes e m) : Denotes e m ↔ Plain e := by
  obtain ⟨⟨port, hport, hstored⟩, hgeneration, hstatus⟩ := h
  constructor
  · rintro ⟨hdigits, hgen, htext⟩
    refine ⟨⟨_, hdigits, ?_⟩, ⟨_, hgen⟩, ?_⟩
    · have hlt := m.node.port.toNat_lt
      omega
    · rw [htext]
      cases m.status with
      | alive => exact Or.inl rfl
      | left => exact Or.inr rfl
  · rintro ⟨⟨n, hn, hle⟩, ⟨g, hg⟩, htext⟩
    refine ⟨?_, ?_, ?_⟩
    · -- `stoi` reads digits as they are, and the cast to 16 bits keeps the number
      rw [stoi_of_readDigits hn, if_pos (by omega)] at hport
      obtain rfl : (n : ℤ) = port := Option.some.inj hport
      have hofNat : (n : ℤ) = (UInt16.ofNat n).toNat := by
        rw [UInt16.toNat_ofNat_of_lt' (show n < 2 ^ 16 by omega)]
      rw [hn, hstored, hofNat, ofInt_toNat, UInt16.toNat_ofNat_of_lt' (show n < 2 ^ 16 by omega)]
    · -- `stoull` throws if the number does not fit, so one that was stored fits
      rw [stoull_of_readDigits hg] at hgeneration
      obtain ⟨hlt, hgeneration⟩ := Option.ite_none_right_eq_some.mp hgeneration
      rw [hg, ← Option.some.inj hgeneration, UInt64.toNat_ofNat_of_lt' hlt]
    · have hne : ascii "alive" ≠ ascii "left" := by decide
      rcases htext with htext | htext
      · rw [hstatus, htext, if_neg hne, if_pos rfl]
      · rw [hstatus, htext, if_pos rfl, if_neg (by decide)]

end GossipEntry

open GossipEntry

/-- **An entry that is stored as something else**: the port 70000 is stored as 4464, the generation
-1 as the last one, and the status `gone` as `alive`. -/
theorem gossip_misread :
    (Parser.parse [ascii "CLUSTER", ascii "GOSSIP", ascii "n", ascii "h", ascii " 70000x",
        ascii "-1", ascii "gone"]).type = .clusterGossip ∧
      readGossip (Parser.parse [ascii "CLUSTER", ascii "GOSSIP", ascii "n", ascii "h",
        ascii " 70000x", ascii "-1", ascii "gone"]).keys =
        some [⟨⟨ascii "n", ascii "h", 4464⟩, 18446744073709551615, .alive⟩] ∧
      ¬List.Forall₂ Denotes
        (gossipEntries [ascii "n", ascii "h", ascii " 70000x", ascii "-1", ascii "gone"])
        [⟨⟨ascii "n", ascii "h", 4464⟩, 18446744073709551615, .alive⟩] := by
  refine ⟨by decide, by decide, ?_⟩
  intro h
  obtain ⟨⟨hport, -⟩, -⟩ := List.forall₂_cons.mp h
  exact absurd hport (by decide)

/-- The stored members are what the entries decode to, one by one. -/
theorem forall₂_decodes {payload : List Bytes} {remote : List MemberInfo}
    (h : readGossip payload = some remote) :
    List.Forall₂ Decodes (gossipEntries payload) remote := by
  induction payload using readGossip.induct generalizing remote with
  | case1 id host port generation status payload ih =>
    simp only [readGossip, Option.bind_eq_bind, Option.bind_eq_some_iff, Option.pure_def,
      Option.some.injEq] at h
    obtain ⟨n, hn, g, hg, rest, hrest, rfl⟩ := h
    exact List.Forall₂.cons ⟨⟨n, hn, rfl⟩, hg, rfl⟩ (ih hrest)
  | case2 payload hshort =>
    rw [readGossip] at h
    · obtain rfl := Option.some.inj h
      rw [gossipEntries]
      · exact List.Forall₂.nil
      · exact hshort
    · exact hshort

/-- A relation that comes down to a property of the left side, element by element. -/
theorem forall₂_iff_forall {α β : Type} {R S : α → β → Prop} {P : α → Prop} {l : List α}
    {l' : List β} (h : List.Forall₂ R l l') (hRS : ∀ a b, R a b → (S a b ↔ P a)) :
    List.Forall₂ S l l' ↔ ∀ a ∈ l, P a := by
  induction h with
  | nil => simp
  | cons hab _ ih => rw [List.forall₂_cons, List.forall_mem_cons, hRS _ _ hab, ih]

/-- The payload of a `CLUSTER GOSSIP` request. -/
theorem keys_of_clusterGossip {args : List Bytes}
    (h : (Parser.parse args).type = .clusterGossip) : (Parser.parse args).keys = args.drop 2 := by
  revert h
  have hexpire : ∀ key amount unit, (Parser.parseExpire key amount unit).type ≠ .clusterGossip :=
    Parser.type_parseExpire_ne (by decide) (by decide)
  -- one case is that of `CLUSTER GOSSIP`, and the others give commands of another type
  fun_cases Parser.parse args
  all_goals first
    | with_reducible exact fun h => absurd h (hexpire _ _ _)
    | exact fun h => CommandType.noConfusion h
    | exact fun _ => rfl

/-- **A gossip payload that is merged is stored as written** exactly if every entry is plain: numerals
of digits only, a port of at most 65535, and one of the two statuses. -/
theorem gossip_as_written_iff {args : List Bytes} {remote : List MemberInfo}
    (h : (Parser.parse args).type = .clusterGossip)
    (hread : readGossip (Parser.parse args).keys = some remote) :
    List.Forall₂ Denotes (gossipEntries (args.drop 2)) remote ↔
      ∀ e ∈ gossipEntries (args.drop 2), Plain e := by
  rw [keys_of_clusterGossip h] at hread
  exact forall₂_iff_forall (forall₂_decodes hread) fun _ _ => denotes_iff_plain

/-- The last port and the last generation, with leading zeros. -/
theorem gossip_as_written_lastPort :
    readGossip (Parser.parse [ascii "CLUSTER", ascii "GOSSIP", ascii "n", ascii "h",
        ascii "0065535", ascii "18446744073709551615", ascii "left"]).keys =
        some [⟨⟨ascii "n", ascii "h", 65535⟩, 18446744073709551615, .left⟩] ∧
      List.Forall₂ Denotes
        (gossipEntries [ascii "n", ascii "h", ascii "0065535", ascii "18446744073709551615",
          ascii "left"])
        [⟨⟨ascii "n", ascii "h", 65535⟩, 18446744073709551615, .left⟩] := by
  have hread : readGossip (Parser.parse [ascii "CLUSTER", ascii "GOSSIP", ascii "n", ascii "h",
      ascii "0065535", ascii "18446744073709551615", ascii "left"]).keys =
      some [⟨⟨ascii "n", ascii "h", 65535⟩, 18446744073709551615, .left⟩] := by decide
  have hport : readDigits (ascii "0065535") = some 65535 := by decide
  have hgeneration : readDigits (ascii "18446744073709551615") = some 18446744073709551615 := by
    decide
  refine ⟨hread, (gossip_as_written_iff (by decide) hread).mpr ?_⟩
  intro e he
  obtain rfl : e = ⟨ascii "0065535", ascii "18446744073709551615", ascii "left"⟩ :=
    List.mem_singleton.mp he
  exact ⟨⟨_, hport, by decide⟩, ⟨_, hgeneration⟩, Or.inr rfl⟩

end ShardCache
