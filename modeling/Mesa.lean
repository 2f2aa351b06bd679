import Mesa.Anv.BlockPool
import Mesa.Anv.DescriptorSet
import Mesa.Anv.DescriptorSetRuns
import Mesa.Anv.ScratchPool
import Mesa.Anv.ScratchPoolRuns
import Mesa.Anv.StatePool
import Mesa.Anv.StatePoolRuns
import Mesa.Anv.StateStream
import Mesa.Bits.Bytes
import Mesa.Bits.Fields
import Mesa.Bits.LongDivision
import Mesa.Bits.Words
import Mesa.Broadcom.QpuBranch
import Mesa.Broadcom.QpuInstr
import Mesa.Broadcom.QpuPack
import Mesa.Broadcom.QpuRoundTrip
import Mesa.Brw.Compact
import Mesa.Brw.CompactRoundTrip
import Mesa.Brw.UboAnalysis
import Mesa.Brw.UboBestRanges
import Mesa.Brw.UboRanges
import Mesa.Clover.BridgeConfig
import Mesa.Clover.Factor
import Mesa.Clover.FactorSearch
import Mesa.Clover.Module
import Mesa.Clover.ProgramBinary
import Mesa.Clover.Serializer
import Mesa.Clover.Transfer
import Mesa.Compiler.Blob
import Mesa.Compiler.BlobRoundTrip
import Mesa.Data.BinaryFloat
import Mesa.Data.BitRuns
import Mesa.Data.BitScan
import Mesa.Data.Bitset
import Mesa.Data.Chain
import Mesa.Data.Colouring
import Mesa.Data.Comparison
import Mesa.Data.Copying
import Mesa.Data.Lru
import Mesa.Data.MixedRadix
import Mesa.Data.Odometer
import Mesa.Data.Probing
import Mesa.Data.Ranges
import Mesa.Data.Ranking
import Mesa.Data.Rebalancing
import Mesa.Data.Ring
import Mesa.Data.Runs
import Mesa.Data.Slots
import Mesa.Egl.ChooseConfig
import Mesa.Egl.CompareConfigs
import Mesa.Egl.Config
import Mesa.Egl.SortConfigs
import Mesa.Flow.Approx
import Mesa.Flow.Behaviour
import Mesa.Flow.Counter
import Mesa.Flow.Dominance
import Mesa.Flow.DominatorTree
import Mesa.Flow.PhiPlacement
import Mesa.Flow.Region
import Mesa.Flow.Transition
import Mesa.Gallium.Bitmask
import Mesa.Gallium.Cache
import Mesa.Gallium.CacheRuns
import Mesa.Gallium.PbSlab
import Mesa.Gallium.PbSlabRuns
import Mesa.Gallium.PrimCut
import Mesa.Gallium.RestartEmulation
import Mesa.Gallium.SplitPrim
import Mesa.Glcpp.Conditional
import Mesa.Glcpp.DefinedChains
import Mesa.Glcpp.DefinedOperators
import Mesa.Glcpp.ExpandRuns
import Mesa.Glcpp.ReplacesFirst
import Mesa.Glcpp.SkipStack
import Mesa.Glsl.ArrayRefcount
import Mesa.Glsl.ConstantPropagation
import Mesa.Glsl.CopyPropagation
import Mesa.Glsl.Ir
import Mesa.Glsl.MinMaxPruned
import Mesa.Glsl.PackedVaryingsFit
import Mesa.Glsl.RebalanceBalanced
import Mesa.Glsl.RebalanceTree
import Mesa.Glsl.RebalanceTypes
import Mesa.Glsl.UniformBlockLayout
import Mesa.Glsl.VaryingAssignment
import Mesa.Glsl.VaryingLocations
import Mesa.Glsl.VaryingMatches
import Mesa.I965.TiledCopies
import Mesa.I965.TiledMemcpy
import Mesa.I965.TiledTexture
import Mesa.Main.Hash
import Mesa.Main.HashLastSize
import Mesa.Nir.Bitfield
import Mesa.Nir.BlockGraph
import Mesa.Nir.ComplexUnroll
import Mesa.Nir.ControlFlow
import Mesa.Nir.CseDominance
import Mesa.Nir.CsePass
import Mesa.Nir.Dominance
import Mesa.Nir.DominanceExact
import Mesa.Nir.InstrKeys
import Mesa.Nir.InstrSet
import Mesa.Nir.LcssaRuns
import Mesa.Nir.LcssaStep
import Mesa.Nir.LcssaValid
import Mesa.Nir.LoopAnalyze
import Mesa.Nir.LoopBlocks
import Mesa.Nir.LoopClosed
import Mesa.Nir.LoopUnroll
import Mesa.Nir.LowerInt64
import Mesa.Nir.LowerInt64Exact
import Mesa.Nir.LowerReturns
import Mesa.Nir.MergeSetRuns
import Mesa.Nir.OptCse
import Mesa.Nir.OptIf
import Mesa.Nir.ParallelCopyResolved
import Mesa.Nir.PeelInitialIf
import Mesa.Nir.PhiBuilder
import Mesa.Nir.PhiBuilderPlacing
import Mesa.Nir.PhiBuilderState
import Mesa.Nir.PhiBuilderValues
import Mesa.Nir.ReturnsLowered
import Mesa.Nir.RewriteUses
import Mesa.Nir.SimpleUnroll
import Mesa.Nir.Terminators
import Mesa.Nir.ToLcssa
import Mesa.Nir.TripCount
import Mesa.Radv.DescriptorSet
import Mesa.Radv.DescriptorSetRuns
import Mesa.Radv.FailedAllocation
import Mesa.Util.HalfFloat
import Mesa.Util.HalfFloatRounding
import Mesa.Util.HashProbes
import Mesa.Util.HashTable
import Mesa.Util.HashTableMap
import Mesa.Util.HashTableU64
import Mesa.Util.MarkedMap
import Mesa.Util.Queue
import Mesa.Util.QueueInvariant
import Mesa.Util.QueueRuns
import Mesa.Util.RegisterAllocate
import Mesa.Util.RegisterAllocateBuild
import Mesa.Util.RegisterAllocateSelect
import Mesa.Util.RegisterAllocateSimplify
import Mesa.Util.Slab
import Mesa.Util.SlabInvariant
import Mesa.Util.SlabRuns
import Mesa.Util.StringBuffer
import Mesa.Util.StringBufferRuns
import Mesa.Util.UVector
import Mesa.Util.UVectorRuns
import Mesa.Vbo.SplitFaithfully
import Mesa.Vbo.SplitInplace
import Mesa.Vbo.SplitPieces
