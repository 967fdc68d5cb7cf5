import StateIdentification.AccessWords
import StateIdentification.AdaptiveSequence.Basic
import StateIdentification.AdaptiveSequence.Derivation
import StateIdentification.Arena
import StateIdentification.ConstructionError
import StateIdentification.Counting
import StateIdentification.Grid
import StateIdentification.Handle
import StateIdentification.Machine.Basic
import StateIdentification.Machine.Draft
import StateIdentification.Machine.Exploration
import StateIdentification.Machine.InputOrder
import StateIdentification.Machine.Reachability
import StateIdentification.Machine.Run
import StateIdentification.Machine.Submachine
import StateIdentification.Machine.TransitionTable
import StateIdentification.Memory.Construction
import StateIdentification.Memory.Growth
import StateIdentification.Memory.Machine
import StateIdentification.Memory.Partition
import StateIdentification.Memory.Random
import StateIdentification.Memory.TableLimit
import StateIdentification.Partition.Basic
import StateIdentification.Partition.Refine
import StateIdentification.Proofs.ArenaCounting
import StateIdentification.Proofs.ArenaShape
import StateIdentification.Proofs.BoundedGrowth
import StateIdentification.Proofs.BreadthFirst
import StateIdentification.Proofs.CanonicalForm
import StateIdentification.Proofs.CompanionWords
import StateIdentification.Proofs.DerivationStep
import StateIdentification.Proofs.DistinguishingExperiment
import StateIdentification.Proofs.DraftedMachine
import StateIdentification.Proofs.EquivalentSuffixes
import StateIdentification.Proofs.FamilyAgreement
import StateIdentification.Proofs.FamilyContents
import StateIdentification.Proofs.GatheredWords
import StateIdentification.Proofs.GrowthHistory
import StateIdentification.Proofs.GrowthInvariant
import StateIdentification.Proofs.GrowthRun
import StateIdentification.Proofs.LeastWords
import StateIdentification.Proofs.LowestCommonAncestor
import StateIdentification.Proofs.LowestNode
import StateIdentification.Proofs.MatrixEntries
import StateIdentification.Proofs.MaximalWords
import StateIdentification.Proofs.MergeAnswers
import StateIdentification.Proofs.NodeNumbers
import StateIdentification.Proofs.PartitionContents
import StateIdentification.Proofs.PartitionMerge
import StateIdentification.Proofs.PartitionQueries
import StateIdentification.Proofs.PartitionRun
import StateIdentification.Proofs.PartitionScan
import StateIdentification.Proofs.PartitionStep
import StateIdentification.Proofs.RandomDraw
import StateIdentification.Proofs.RandomSearch
import StateIdentification.Proofs.RobustDerivation
import StateIdentification.Proofs.SeparatingPairs
import StateIdentification.Proofs.SeparatorMeaning
import StateIdentification.Proofs.SequenceDerivation
import StateIdentification.Proofs.SequenceLeaves
import StateIdentification.Proofs.SequencePaths
import StateIdentification.Proofs.SequenceShape
import StateIdentification.Proofs.SequenceSoundness
import StateIdentification.Proofs.SizeBounds
import StateIdentification.Proofs.SplitAnswers
import StateIdentification.Proofs.SplitSearch
import StateIdentification.Proofs.StablePartition
import StateIdentification.Proofs.StateEquivalence
import StateIdentification.Proofs.StoredMachine
import StateIdentification.Proofs.StoredTrie
import StateIdentification.Proofs.StoredTrieSet
import StateIdentification.Proofs.StoredTrieWalk
import StateIdentification.Proofs.SubmachineBehaviour
import StateIdentification.Proofs.SuccessorEntries
import StateIdentification.Proofs.SuffixFamilies
import StateIdentification.Proofs.TreeShape
import StateIdentification.Proofs.TreeSplit
import StateIdentification.Proofs.TreeTraversal
import StateIdentification.Proofs.TrieOrder
import StateIdentification.Proofs.TrieSet
import StateIdentification.Proofs.TurnByTurn
import StateIdentification.Proofs.WellShapedTree
import StateIdentification.Proofs.WordRuns
import StateIdentification.Random.Generator
import StateIdentification.Random.Machine
import StateIdentification.Random.Source
import StateIdentification.SplittingTree.Basic
import StateIdentification.SplittingTree.CommonAncestor
import StateIdentification.SplittingTree.Growth
import StateIdentification.SplittingTree.Options
import StateIdentification.SplittingTree.SuccessorTable
import StateIdentification.Suffixes.Family
import StateIdentification.Suffixes.Matrix
import StateIdentification.TestSuite
import StateIdentification.Text.Render
import StateIdentification.Text.RoundedTable
import StateIdentification.Text.Terminal
import StateIdentification.Trie
import StateIdentification.Trie.Stored
